import FlatCode.Proofs.Recognition.Rebuilt

/-!
# The readers and the recognizer

The readers of the parser and the recognizer go through the tokens together.  Where a
reader succeeds, the recognizer has cleared the goals that belong to the reader; where
a reader finds that a token does not fit the grammar, the recognizer refuses that very
token.  If a reader finds another fault, nothing is said: the recognizer has no such
checks.

The statement about a reader is `Tracks`.  A longer reader is put together by `>>=`,
and `Tracks.bind` puts the statements about its parts together.
-/

namespace FlatCode.Recognizer

open Token (Ending Kind Parsed accept expect)
open Surface (nextKind binaryLevels unarySigns)

/-- A check that is made besides the grammar: what it reports is no fault of syntax. -/
def Semantic {α : Type} (checked : Except Diagnostic α) : Prop :=
  ∀ report, checked = .error report → report.stage ≠ .syntactic

/-- A reader that starts at `before` and the recognizer go together, from the goals
`goals` to the goals `left`. -/
inductive Tracks
    {α : Type} {limit : Nat} (last : Token) (goals left : List Goal)
    (before : List Token) : Except Diagnostic (Parsed α limit) → Prop where
  | ok {parsed : Parsed α limit}
      (moves : Moves last goals left before parsed.rest) :
      Tracks last goals left before (.ok parsed)
  /-- A token does not fit the grammar. -/
  | refused {report : Diagnostic} {token : Token}
      (stuck : ∀ stack, run (goals ++ stack) (before ++ [last]) = .error token)
      (place : token.position = report.position) :
      Tracks last goals left before (.error report)
  /-- A fault that the recognizer does not look for. -/
  | unchecked {report : Diagnostic} (other : report.stage ≠ .syntactic) :
      Tracks last goals left before (.error report)

namespace Tracks

variable {α β γ : Type} {limit bound : Nat} {last : Token}
  {goal : Goal} {goals middle left added : List Goal}
  {before between : List Token}
  {result : Except Diagnostic (Parsed α limit)}
  {next : Parsed α limit → Except Diagnostic (Parsed β bound)}

/-- The recognizer has read something before. -/
theorem behind
    (tracks : Tracks last middle left between result)
    (moves : Moves last goals middle before between) :
    Tracks last goals left before result := by
  cases tracks with
  | ok later =>
      exact .ok (moves.trans later)
  | refused stuck place =>
      exact .refused (fun stack => (moves stack).trans (stuck stack)) place
  | unchecked other =>
      exact .unchecked other

/-- One reader behind another. -/
theorem bind
    (tracks : Tracks last goals middle before result)
    (later : ∀ parsed, result = .ok parsed →
      Tracks last middle left parsed.rest (next parsed)) :
    Tracks last goals left before (result >>= next) := by
  cases tracks with
  | ok moves =>
      exact (later _ rfl).behind moves
  | refused stuck place =>
      exact .refused stuck place
  | unchecked other =>
      exact .unchecked other

/-- More goals below. -/
theorem above
    (tracks : Tracks last goals left before result) (below : List Goal) :
    Tracks last (goals ++ below) (left ++ below) before result := by
  cases tracks with
  | ok moves =>
      exact .ok (moves.above below)
  | refused stuck place =>
      refine .refused (fun stack => ?_) place
      rw [List.append_assoc]
      exact stuck (below ++ stack)
  | unchecked other =>
      exact .unchecked other

/-- Where the reader succeeds, the recognizer goes on. -/
theorem moves
    {parsed : Parsed α limit}
    (tracks : Tracks last goals left before (.ok parsed)) :
    Moves last goals left before parsed.rest := by
  cases tracks with
  | ok moves => exact moves

/-- Where a token does not fit the grammar, the recognizer refuses it. -/
theorem exists_refused
    {report : Diagnostic}
    (tracks :
      Tracks last goals left before
        (.error report : Except Diagnostic (Parsed α limit)))
    (syntactic : report.stage = .syntactic) (stack : List Goal) :
    ∃ token,
      run (goals ++ stack) (before ++ [last]) = .error token ∧
        token.position = report.position := by
  cases tracks with
  | refused stuck place =>
      exact ⟨_, stuck stack, place⟩
  | unchecked other =>
      exact (other syntactic).elim

/-- A last move without a token. -/
theorem finish
    (tracks : Tracks last goals middle before result)
    (moves : ∀ parsed, result = .ok parsed →
      Moves last middle left parsed.rest parsed.rest) :
    Tracks last goals left before result := by
  cases tracks with
  | ok first =>
      exact .ok (first.trans (moves _ rfl))
  | refused stuck place =>
      exact .refused stuck place
  | unchecked other =>
      exact .unchecked other

/-- A check leaves the recognizer where it is. -/
theorem check
    {checked : Except Diagnostic γ}
    {next : γ → Except Diagnostic (Parsed β bound)}
    (semantic : Semantic checked)
    (later : ∀ value, Tracks last goals left before (next value)) :
    Tracks last goals left before (checked >>= next) := by
  cases checked with
  | error report =>
      exact .unchecked (semantic report rfl)
  | ok value =>
      exact later value

/-- A goal that may not be left out refuses the next token. -/
theorem refuse
    {report : Diagnostic} {token : Token} {rest : List Token}
    (split : before ++ [last] = token :: rest)
    (foreign : goal.take token.kind = none) (needed : goal.skippable = false)
    (place : token.position = report.position) :
    Tracks last (goal :: goals) left before
      (.error report : Except Diagnostic (Parsed α limit)) := by
  refine .refused (fun stack => ?_) place
  rw [split]
  exact run_of_refuse foreign needed

end Tracks

/-! ## Readers of single tokens -/

section Single

variable {β : Type} {bound : Nat} {last : Token} {ending : Ending} {kind : Kind}
  {goal : Goal} {goals left added : List Goal} {tokens : List Token}

variable (ended : ending = .ok last)

include ended

/-- A token is taken if it comes next, where the goal on top takes it too. -/
theorem tracks_accept
    {next :
      Option (Parsed Token tokens.length) → Except Diagnostic (Parsed β bound)}
    (inner : kind ≠ .eof) (taken : goal.take kind = some added)
    (present : ∀ parsed,
      Tracks last (added ++ goals) left parsed.rest (next (some parsed)))
    (absent : nextKind tokens ≠ kind →
      Tracks last (goal :: goals) left tokens (next none)) :
    Tracks last (goal :: goals) left tokens
      (accept ending kind tokens >>= next) := by
  cases accepted : accept ending kind tokens with
  | error report =>
      subst ended
      cases tokens with
      | nil =>
          cases accepted
      | cons token rest =>
          rw [accept] at accepted
          split at accepted <;> cases accepted
  | ok found =>
      cases found with
      | none =>
          exact absent (Token.nextKind_ne_of_accept accepted inner)
      | some parsed =>
          obtain ⟨split, fits⟩ := Token.eq_cons_of_accept accepted
          have moves :
              Moves last (goal :: goals) (added ++ goals)
                (parsed.value :: parsed.rest) parsed.rest :=
            .step fits taken
          rw [← split] at moves
          exact (present parsed).behind moves

variable (isLast : last.kind = .eof)

include isLast

theorem tracks_expect (inner : kind ≠ .eof) :
    Tracks last (.token kind :: goals) goals tokens
      (expect ending kind tokens) := by
  subst ended
  cases tokens with
  | nil =>
      have foreign : (Goal.token kind).take last.kind = none :=
        if_neg fun fits => inner (fits.symm.trans isLast)
      exact .refuse rfl foreign rfl rfl
  | cons token rest =>
      rw [expect]
      split
      · next fits =>
          exact .ok (.clear fits (if_pos rfl))
      · next unfit =>
          have foreign : (Goal.token kind).take token.kind = none := if_neg unfit
          exact .refuse rfl foreign rfl rfl

end Single

/-! ## Goals that go on as other goals do

The goals of the recognizer have one alternative more than what a reader expects once
it has seen that the alternative is absent. -/

section Alternatives

variable {last : Token} {tokens : List Token}

variable (isLast : last.kind = .eof)

include isLast

/-- Behind the last argument comes the closing parenthesis. -/
theorem moves_last_argument (noComma : nextKind tokens ≠ .comma) :
    Moves last [.moreArguments] [.token .rparen] tokens tokens := by
  have same : ∀ kind, kind ≠ .comma →
      Goal.moreArguments.take kind =
        ((Goal.token .rparen).take kind).map (· ++ []) := by
    intro kind other
    cases kind <;> first | rfl | contradiction
  exact .alternative isLast same rfl rfl noComma

/-- Without a bracket an assignment goes on with its sign. -/
theorem moves_assignment (noBracket : nextKind tokens ≠ .lbracket) :
    Moves last [.assignment] [.token .assign, .operand, .operators] tokens
      tokens := by
  have same : ∀ kind, kind ≠ .lbracket →
      Goal.assignment.take kind =
        ((Goal.token .assign).take kind).map (· ++ [.operand, .operators]) := by
    intro kind other
    cases kind <;> first | rfl | contradiction
  exact .alternative isLast same rfl rfl noBracket

/-- Parameters that are there start with a name. -/
theorem moves_params (occupied : nextKind tokens ≠ .rparen) :
    Moves last [.params] [.token .identifier, .moreParams] tokens tokens := by
  have same : ∀ kind, kind ≠ .rparen →
      Goal.params.take kind =
        ((Goal.token .identifier).take kind).map (· ++ [.moreParams]) := by
    intro kind other
    cases kind <;> first | rfl | contradiction
  exact .alternative isLast same rfl rfl occupied

/-- Behind the last parameter comes the closing parenthesis. -/
theorem moves_last_param (noComma : nextKind tokens ≠ .comma) :
    Moves last [.moreParams] [.token .rparen] tokens tokens := by
  have same : ∀ kind, kind ≠ .comma →
      Goal.moreParams.take kind =
        ((Goal.token .rparen).take kind).map (· ++ []) := by
    intro kind other
    cases kind <;> first | rfl | contradiction
  exact .alternative isLast same rfl rfl noComma

end Alternatives

/-! ## Expressions -/

section Expressions

open FlatCode.Expr (Context parseLevels parseOperators parseOperand parseIndex
  parseCall parseArguments)

variable (context : Context) (last : Token)

/-- Expressions of some levels leave the goal of further operators open. -/
def LevelsTrack (levels : List Level) (tokens : List Token) : Prop :=
  levels <:+ Level.table →
    Tracks last [.operand, .operators] [.operators] tokens
      (parseLevels context levels tokens)

/-- So do operators behind an operand. -/
def OperatorsTrack
    (level : Level) (tighter : List Level) (lhs : Expr) (tokens : List Token) :
    Prop :=
  level :: tighter <:+ Level.table →
    Tracks last [.operators] [.operators] tokens
      (parseOperators context level tighter lhs tokens)

/-- The statement about operands.  The recognizer has no goal for an operand that must
not start with a unary operator, but such an operand is only read where none is left. -/
def OperandTracks (tokens : List Token) : Prop :=
  nextKind tokens ∉ unarySigns →
    Tracks last [.operand] [] tokens (parseOperand context tokens)

def IndexTracks (cell : String) (tokens : List Token) : Prop :=
  Tracks last [.operand, .operators, .token .rbracket] [] tokens
    (parseIndex context cell tokens)

def CallTracks (callable : Callable) (tokens : List Token) : Prop :=
  Tracks last [.arguments] [] tokens (parseCall context callable tokens)

def ArgumentsTrack (tokens : List Token) : Prop :=
  Tracks last [.operand, .operators, .moreArguments] [.token .rparen] tokens
    (parseArguments context tokens)

variable {context last}

/-- Behind a run of unary operators comes none. -/
theorem not_sign_of_readRun (run : List Unary) (tokens : List Token) :
    nextKind (Unary.readRun run tokens).rest ∉ unarySigns := by
  induction tokens generalizing run with
  | nil =>
      rw [Unary.readRun, Parsed.rest_stay]
      decide
  | cons token rest inductionHypothesis =>
      rw [Unary.readRun]
      split
      · next longer _ =>
          exact inductionHypothesis longer
      · next none =>
          rw [Parsed.rest_stay, Token.nextKind_cons]
          intro isSign
          rw [Surface.extend?_of_mem isSign] at none
          cases none

theorem levelsTrack_nil
    {tokens : List Token}
    (operandTracks :
      OperandTracks context last (Unary.readRun [] tokens).rest) :
    LevelsTrack context last [] tokens := by
  intro _
  obtain ⟨signs, derived, _⟩ := Surface.exists_signs_of_readRun [] tokens
  have tracks := operandTracks (not_sign_of_readRun [] tokens)
  rw [parseLevels]
  refine Tracks.behind ?_ ((moves_of_signs derived).above [.operators])
  exact (tracks.above [.operators]).bind fun _ _ => .ok .refl

theorem levelsTrack_cons
    {level : Level} {tighter : List Level} {tokens : List Token}
    (firstTracks : LevelsTrack context last tighter tokens)
    (othersTrack : ∀ first : Parsed Expr tokens.length,
      OperatorsTrack context last level tighter first.value first.rest) :
    LevelsTrack context last (level :: tighter) tokens := by
  intro within
  rw [parseLevels]
  refine (firstTracks (Level.tighter_within within)).bind fun first _ => ?_
  exact (othersTrack first within).bind fun _ _ => .ok .refl

theorem operatorsTrack_nil
    {level : Level} {tighter : List Level} {lhs : Expr}
    (ended : context.ending = .ok last) :
    OperatorsTrack context last level tighter lhs [] := by
  intro _
  rw [parseOperators, ended]
  exact .ok .refl

theorem operatorsTrack_stop
    {level : Level} {tighter : List Level} {lhs : Expr} {token : Token}
    {rest : List Token} (foreign : level.operator? token.kind = none) :
    OperatorsTrack context last level tighter lhs (token :: rest) := by
  intro _
  rw [parseOperators]
  simp only [foreign]
  exact .ok .refl

theorem operatorsTrack_cons
    {level : Level} {tighter : List Level} {lhs : Expr} {token : Token}
    {rest : List Token} {operator : Operator}
    (own : level.operator? token.kind = some operator)
    (rhsTracks : LevelsTrack context last tighter rest)
    (othersTrack : ∀ rhs : Parsed Expr rest.length,
      OperatorsTrack context last level tighter
        (level.combine operator lhs rhs.value) rhs.rest) :
    OperatorsTrack context last level tighter lhs (token :: rest) := by
  intro within
  have listed : token.kind ∈ binaryLevels.flatten :=
    List.mem_flatten.mpr
      ⟨level.signs, List.mem_map_of_mem (within.subset List.mem_cons_self),
        Level.mem_signs_of_operator? own⟩
  rw [parseOperators]
  simp only [own]
  refine Tracks.behind ?_ (Moves.step rfl (take_operators listed))
  refine (rhsTracks (Level.tighter_within within)).bind fun rhs _ => ?_
  exact (othersTrack rhs within).bind fun _ _ => .ok .refl

/-! ### Operands -/

/-- A name is resolved besides the grammar. -/
theorem semantic_resolve (name : Token) : Semantic (context.resolve name) := by
  intro report failed
  unfold Context.resolve at failed
  split at failed <;> cases failed
  nofun

/-- Arguments are counted besides the grammar. -/
theorem semantic_finishCall
    (callable : Callable) (args : List Expr) (close : Token) :
    Semantic (FlatCode.Expr.finishCall callable args close) := by
  intro report failed
  unfold FlatCode.Expr.finishCall at failed
  split at failed <;> cases failed
  nofun

theorem operandTracks_number
    {token : Token} {rest : List Token} (number : token.kind = .number) :
    OperandTracks context last (token :: rest) := by
  intro _
  rw [parseOperand]
  simp only [number]
  exact .ok (.clear number rfl)

theorem operandTracks_other
    {token : Token} {rest : List Token}
    (notParenthesis : token.kind = .lparen → False)
    (notNumber : token.kind = .number → False)
    (notIdentifier : token.kind = .identifier → False) :
    OperandTracks context last (token :: rest) := by
  intro noSign
  have foreign : Goal.operand.take token.kind = none := by
    cases taken : Goal.operand.take token.kind with
    | none =>
        rfl
    | some added =>
        rcases takeOperand_cases taken with
          ⟨isSign, _⟩ | ⟨isNumber, _⟩ | ⟨isName, _⟩ | ⟨opens, _⟩
        · exact (noSign isSign).elim
        · exact (notNumber isNumber).elim
        · exact (notIdentifier isName).elim
        · exact (notParenthesis opens).elim
  rw [parseOperand]
  split
  · next opens => exact (notParenthesis opens).elim
  · next number => exact (notNumber number).elim
  · next identifier => exact (notIdentifier identifier).elim
  · exact .refuse rfl foreign rfl rfl

section Operands

variable (isLast : last.kind = .eof) (ended : context.ending = .ok last)

include isLast

/-- A whole expression is read up to a token that is no operator. -/
theorem LevelsTrack.whole
    {tokens : List Token} (tracks : LevelsTrack context last Level.table tokens) :
    Tracks last [.operand, .operators] [] tokens
      (parseLevels context Level.table tokens) :=
  (tracks (List.suffix_refl _)).finish fun _ read =>
    moves_stop isLast (Surface.yields_of_parse read).2

include ended

theorem operandTracks_nil : OperandTracks context last [] := by
  have foreign : Goal.operand.take last.kind = none := by
    rw [isLast]
    rfl
  intro _
  rw [parseOperand, ended]
  exact .refuse rfl foreign rfl rfl

theorem operandTracks_parenthesis
    {token : Token} {rest : List Token} (opens : token.kind = .lparen)
    (innerTracks : LevelsTrack context last Level.table rest) :
    OperandTracks context last (token :: rest) := by
  intro _
  rw [parseOperand]
  simp only [opens]
  refine Tracks.behind ?_ (Moves.step opens rfl)
  refine ((innerTracks.whole isLast).above [.token .rparen]).bind fun inner _ => ?_
  exact (tracks_expect ended isLast (by decide)).bind fun _ _ => .ok .refl

theorem operandTracks_identifier
    {token : Token} {rest : List Token} (identifier : token.kind = .identifier)
    (callTracks :
      ∀ (opening : Parsed Token rest.length) (callable : Callable),
        CallTracks context last callable opening.rest)
    (indexTracks : ∀ opening : Parsed Token rest.length,
      IndexTracks context last token.payload opening.rest) :
    OperandTracks context last (token :: rest) := by
  intro _
  rw [parseOperand]
  simp only [identifier]
  refine Tracks.behind ?_ (Moves.step identifier rfl)
  refine tracks_accept ended (by decide) rfl (fun opening => ?_) ?_
  · refine .check (semantic_resolve token) fun callable => ?_
    exact (callTracks opening callable).bind fun _ _ => .ok .refl
  · intro noParenthesis
    refine tracks_accept ended (by decide) rfl (fun opening => ?_) ?_
    · exact (indexTracks opening).bind fun _ _ => .ok .refl
    · intro noBracket
      have detached : Surface.Detached rest := by
        simp [Surface.Detached, noParenthesis, noBracket]
      exact .ok (.skip isLast rfl (take_access_none detached))

theorem indexTracks_step
    {cell : String} {tokens : List Token}
    (innerTracks : LevelsTrack context last Level.table tokens) :
    IndexTracks context last cell tokens := by
  rw [IndexTracks, parseIndex]
  refine
    ((innerTracks.whole isLast).above [.token .rbracket]).bind fun index _ => ?_
  exact (tracks_expect ended isLast (by decide)).bind fun _ _ => .ok .refl

theorem callTracks_step
    {callable : Callable} {tokens : List Token}
    (argumentsTrack : ArgumentsTrack context last tokens) :
    CallTracks context last callable tokens := by
  rw [CallTracks, parseCall]
  refine tracks_accept ended (by decide) rfl (fun close => ?_) ?_
  · exact .check (semantic_finishCall callable [] close.value) fun _ => .ok .refl
  · intro occupied
    refine Tracks.behind ?_ (moves_arguments isLast occupied)
    refine argumentsTrack.bind fun args _ => ?_
    refine (tracks_expect ended isLast (by decide)).bind fun close _ => ?_
    exact
      .check (semantic_finishCall callable args.value close.value)
        fun _ => .ok .refl

theorem argumentsTrack_step
    {tokens : List Token}
    (firstTracks : LevelsTrack context last Level.table tokens)
    (othersTrack :
      ∀ (first : Parsed Expr tokens.length)
        (comma : Parsed Token first.rest.length),
        ArgumentsTrack context last comma.rest) :
    ArgumentsTrack context last tokens := by
  rw [ArgumentsTrack, parseArguments]
  refine
    ((firstTracks.whole isLast).above [.moreArguments]).bind fun first _ => ?_
  refine tracks_accept ended (by decide) rfl (fun comma => ?_) ?_
  · exact (othersTrack first comma).bind fun _ _ => .ok .refl
  · intro noComma
    exact .ok (moves_last_argument isLast noComma)

/-- The statement about whole expressions. -/
theorem tracks_parse (tokens : List Token) :
    Tracks last [.operand, .operators] [] tokens
      (FlatCode.Expr.parse context tokens) := by
  have readers :=
    FlatCode.Expr.parseLevels.mutual_induct
      (LevelsTrack context last) (OperatorsTrack context last)
      (OperandTracks context last) (IndexTracks context last)
      (CallTracks context last) (ArgumentsTrack context last)
      (fun _ => levelsTrack_nil)
      (fun _ _ _ => levelsTrack_cons)
      (fun _ _ _ => operatorsTrack_nil ended)
      (fun _ _ _ _ _ => operatorsTrack_stop)
      (fun _ _ _ _ _ _ => operatorsTrack_cons)
      (operandTracks_nil isLast ended)
      (fun _ _ => operandTracks_parenthesis isLast ended)
      (fun _ _ => operandTracks_number)
      (fun _ _ => operandTracks_identifier isLast ended)
      (fun _ _ => operandTracks_other)
      (fun _ _ => indexTracks_step isLast ended)
      (fun _ _ => callTracks_step isLast ended)
      (fun _ => argumentsTrack_step isLast ended)
  exact (readers.1 Level.table tokens).whole isLast

end Operands

end Expressions

end FlatCode.Recognizer
