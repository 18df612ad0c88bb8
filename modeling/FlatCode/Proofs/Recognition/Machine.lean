import FlatCode.Proofs.Grammar.Derivation

/-!
# Recognizing without checks

The recognizer reads a token sequence as the parser does, but it builds nothing and
checks nothing apart from the grammar: neither where returns and loop controls stand,
nor which names are taken, nor what is called.  It keeps a stack of goals and never
goes back:

* the goal on top of the stack takes the next token and is replaced by what has to be
  read behind that token;
* a goal that does not take the token is left out if it may be, and otherwise the
  token is refused.

Every stack that comes up can be cleared, so what has been read without a refusal can
always be completed.
-/

namespace FlatCode.Recognizer

open Token (Kind)
open Surface (binaryLevels resultStarts)

/-! ## Goals -/

/-- Something that is to be read. -/
inductive Goal where
  /-- One token of a given kind. -/
  | token (kind : Kind)
  /-- An operand with the unary operators in front of it. -/
  | operand
  /-- Binary operators, each with its right operand, as many as there are. -/
  | operators
  /-- Arguments or an index behind the name in an operand, if there are any. -/
  | access
  /-- The arguments of a call and the closing parenthesis. -/
  | arguments
  /-- The same behind the first argument. -/
  | moreArguments
  | stmt
  /-- Statements, as many as there are. -/
  | stmts
  /-- An assignment behind the name in front. -/
  | assignment
  /-- A semicolon, if there is one. -/
  | semicolon
  /-- The word `else` with its statement, if there is one. -/
  | elseBranch
  /-- The expression behind `return`, if there is one. -/
  | result
  /-- The parameters of a function and the closing parenthesis. -/
  | params
  /-- The same behind the first parameter. -/
  | moreParams
  /-- Function definitions, as many as there are. -/
  | definitions
  deriving DecidableEq, Repr

namespace Goal

/-- What is left of an operand behind its first token. -/
def takeOperand : Kind → Option (List Goal)
  | .plus | .minus | .bitNot | .logicalNot => some [.operand]
  | .number => some []
  | .identifier => some [.access]
  | .lparen => some [.operand, .operators, .token .rparen]
  | _ => none

def takeStmt : Kind → Option (List Goal)
  | .identifier => some [.assignment, .semicolon]
  | .kwIf =>
      some
        [.token .lparen, .operand, .operators, .token .rparen, .stmt,
          .elseBranch]
  | .kwWhile =>
      some [.token .lparen, .operand, .operators, .token .rparen, .stmt]
  | .kwReturn => some [.result, .semicolon]
  | .kwBreak | .kwContinue => some [.semicolon]
  | .raw | .semicolon => some []
  | .lbrace => some [.stmts, .token .rbrace]
  | _ => none

/-- What is left of a goal behind its first token, if the goal takes a token of that
kind. -/
def take (goal : Goal) (kind : Kind) : Option (List Goal) :=
  match goal with
  | .token wanted => if kind = wanted then some [] else none
  | .operand => takeOperand kind
  | .operators =>
      if kind ∈ binaryLevels.flatten then
        some [.operand, .operators]
      else
        none
  | .access =>
      match kind with
      | .lparen => some [.arguments]
      | .lbracket => some [.operand, .operators, .token .rbracket]
      | _ => none
  | .arguments =>
      if kind = .rparen then
        some []
      else
        (takeOperand kind).map (· ++ [.operators, .moreArguments])
  | .moreArguments =>
      match kind with
      | .comma => some [.operand, .operators, .moreArguments]
      | .rparen => some []
      | _ => none
  | .stmt => takeStmt kind
  | .stmts => (takeStmt kind).map (· ++ [.stmts])
  | .assignment =>
      match kind with
      | .assign => some [.operand, .operators]
      | .lbracket =>
          some
            [.operand, .operators, .token .rbracket, .token .assign, .operand,
              .operators]
      | _ => none
  | .semicolon => if kind = .semicolon then some [] else none
  | .elseBranch => if kind = .kwElse then some [.stmt] else none
  | .result =>
      if kind ∈ resultStarts then
        (takeOperand kind).map (· ++ [.operators])
      else
        none
  | .params =>
      match kind with
      | .rparen => some []
      | .identifier => some [.moreParams]
      | _ => none
  | .moreParams =>
      match kind with
      | .comma => some [.token .identifier, .moreParams]
      | .rparen => some []
      | _ => none
  | .definitions =>
      if kind = .kwDef then
        some
          [.token .identifier, .token .lparen, .params, .token .lbrace, .stmts,
            .token .rbrace, .definitions]
      else
        none

def skippable : Goal → Bool
  | .operators | .access | .stmts | .semicolon | .elseBranch | .result
  | .definitions => true
  | _ => false

end Goal

/-! ## Runs -/

/-- Read one token.  A token that is refused is given back. -/
def enter : List Goal → Token → Except Token (List Goal)
  | [], token => .error token
  | goal :: stack, token =>
      match goal.take token.kind with
      | some goals => .ok (goals ++ stack)
      | none => if goal.skippable then enter stack token else .error token

def run (goals : List Goal) : List Token → Except Token (List Goal)
  | [] => .ok goals
  | token :: rest =>
      match enter goals token with
      | .ok left => run left rest
      | .error refused => .error refused

def start : List Goal :=
  [.definitions, .stmts, .token .eof]

/-- Whether a token sequence is a program, apart from what is checked besides the
grammar. -/
def accepts (sequence : List Token) : Bool :=
  match run start sequence with
  | .ok [] => true
  | _ => false

theorem accepts_iff {sequence : List Token} :
    accepts sequence = true ↔ run start sequence = .ok [] := by
  unfold accepts
  split
  · next cleared =>
      exact ⟨fun _ => cleared, fun _ => rfl⟩
  · next other =>
      exact ⟨nofun, fun cleared => (other cleared).elim⟩

section Runs

variable {goal : Goal} {goals stack left : List Goal} {token refused : Token}
  {front rest sequence : List Token}

attribute [local simp] enter run

theorem enter_of_take (taken : goal.take token.kind = some goals) :
    enter (goal :: stack) token = .ok (goals ++ stack) := by
  rw [enter, taken]

theorem enter_of_skip
    (foreign : goal.take token.kind = none) (skips : goal.skippable = true) :
    enter (goal :: stack) token = enter stack token := by
  rw [enter, foreign]
  exact if_pos skips

theorem enter_of_refuse
    (foreign : goal.take token.kind = none) (needed : goal.skippable = false) :
    enter (goal :: stack) token = .error token := by
  rw [enter, foreign]
  exact if_neg (by simp [needed])

theorem run_of_take (taken : goal.take token.kind = some goals) :
    run (goal :: stack) (token :: rest) = run (goals ++ stack) rest := by
  rw [run, enter_of_take taken]

theorem run_of_skip
    (foreign : goal.take token.kind = none) (skips : goal.skippable = true) :
    run (goal :: stack) (token :: rest) = run stack (token :: rest) := by
  rw [run, run, enter_of_skip foreign skips]

theorem run_of_refuse
    (foreign : goal.take token.kind = none) (needed : goal.skippable = false) :
    run (goal :: stack) (token :: rest) = .error token := by
  rw [run, enter_of_refuse foreign needed]

/-- The token that is given back is the one that was refused. -/
theorem eq_of_enter_error (failed : enter goals token = .error refused) :
    refused = token := by
  induction goals with
  | nil =>
      cases failed
      rfl
  | cons goal stack inductionHypothesis =>
      rw [enter] at failed
      split at failed
      · cases failed
      · split at failed
        · exact inductionHypothesis failed
        · cases failed
          rfl

theorem run_append (front back : List Token) (goals : List Goal) :
    run goals (front ++ back) =
      match run goals front with
      | .ok left => run left back
      | .error refused => .error refused := by
  induction front generalizing goals with
  | nil =>
      rfl
  | cons token rest inductionHypothesis =>
      rw [List.cons_append, run, run]
      cases enter goals token with
      | ok left =>
          exact inductionHypothesis left
      | error refused =>
          rfl

/-- A run that fails refuses one of the tokens, and has read the tokens before it. -/
theorem exists_refused (failed : run goals sequence = .error refused) :
    ∃ front rest left,
      sequence = front ++ refused :: rest ∧ run goals front = .ok left ∧
        enter left refused = .error refused := by
  induction sequence generalizing goals with
  | nil =>
      cases failed
  | cons token rest inductionHypothesis =>
      rw [run] at failed
      cases entered : enter goals token with
      | error met =>
          rw [entered] at failed
          cases failed
          obtain rfl := eq_of_enter_error entered
          exact ⟨[], rest, goals, rfl, rfl, entered⟩
      | ok left =>
          rw [entered] at failed
          obtain ⟨front, later, behind, rfl, read, stuck⟩ :=
            inductionHypothesis failed
          refine ⟨token :: front, later, behind, rfl, ?_, stuck⟩
          rw [run, entered]
          exact read

end Runs

/-! ## Stacks that can be cleared -/

def closingKinds : List Kind :=
  [.rparen, .rbracket, .rbrace, .eof]

namespace Goal

/-- The goals that a closing token clears. -/
def closes : Goal → Bool
  | .token kind => kind ∈ closingKinds
  | .moreArguments => true
  | _ => false

/-- The goals whose end is only seen at the token behind them. -/
def trails : Goal → Bool
  | .token _ | .arguments | .moreArguments | .params | .moreParams => false
  | _ => true

end Goal

/-- The first goal that may not be left out is cleared by a closing token. -/
@[simp]
def Guarded : List Goal → Prop
  | [] => False
  | goal :: stack =>
      goal.closes = true ∨ goal.skippable = true ∧ Guarded stack

/-- Behind every goal whose end is seen too late comes one that is cleared by a
closing token. -/
@[simp]
def Steady : List Goal → Prop
  | [] => True
  | goal :: stack => (goal.trails = true → Guarded stack) ∧ Steady stack

section Steady

variable {goal : Goal} {goals stack left : List Goal} {kind : Kind}

attribute [local simp] Goal.closes Goal.trails Goal.skippable closingKinds

theorem steady_start : Steady start := by
  simp [start]

theorem steady_takeOperand
    (taken : Goal.takeOperand kind = some goals)
    (guarded : Guarded stack) (steady : Steady stack) :
    Steady (goals ++ stack) := by
  unfold Goal.takeOperand at taken
  split at taken <;> cases taken <;> simp [guarded, steady]

theorem steady_takeStmt
    (taken : Goal.takeStmt kind = some goals)
    (guarded : Guarded stack) (steady : Steady stack) :
    Steady (goals ++ stack) := by
  unfold Goal.takeStmt at taken
  split at taken <;> cases taken <;> simp [guarded, steady]

/-- What a goal leaves behind its first token keeps the stack steady. -/
theorem steady_take
    (taken : goal.take kind = some goals) (steady : Steady (goal :: stack)) :
    Steady (goals ++ stack) := by
  obtain ⟨guarded, steady⟩ := steady
  cases goal with
  | operand =>
      exact steady_takeOperand taken (guarded rfl) steady
  | stmt =>
      exact steady_takeStmt taken (guarded rfl) steady
  | arguments =>
      simp only [Goal.take] at taken
      split at taken
      · cases taken
        exact steady
      · obtain ⟨first, operandTaken, rfl⟩ := Option.map_eq_some_iff.mp taken
        rw [List.append_assoc]
        exact steady_takeOperand operandTaken (by simp) (by simp [steady])
  | stmts =>
      have guarded := guarded rfl
      obtain ⟨first, stmtTaken, rfl⟩ := Option.map_eq_some_iff.mp taken
      rw [List.append_assoc]
      exact
        steady_takeStmt stmtTaken (by simp [guarded]) (by simp [guarded, steady])
  | result =>
      have guarded := guarded rfl
      simp only [Goal.take] at taken
      split at taken
      · obtain ⟨first, operandTaken, rfl⟩ := Option.map_eq_some_iff.mp taken
        rw [List.append_assoc]
        exact
          steady_takeOperand operandTaken (by simp [guarded])
            (by simp [guarded, steady])
      · cases taken
  | token | operators | access | moreArguments | assignment | semicolon
  | elseBranch | params | moreParams | definitions =>
      simp only [Goal.take] at taken
      split at taken <;> cases taken <;> simp_all

/-- Reading one token keeps the stack steady. -/
theorem steady_enter
    {token : Token} (steady : Steady goals)
    (entered : enter goals token = .ok left) :
    Steady left := by
  induction goals with
  | nil =>
      cases entered
  | cons goal stack inductionHypothesis =>
      cases taken : goal.take token.kind with
      | some added =>
          rw [enter_of_take taken] at entered
          cases entered
          exact steady_take taken steady
      | none =>
          cases skips : goal.skippable with
          | true =>
              rw [enter_of_skip taken skips] at entered
              exact inductionHypothesis steady.2 entered
          | false =>
              rw [enter_of_refuse taken skips] at entered
              cases entered

/-- Reading tokens keeps the stack steady. -/
theorem steady_run
    {sequence : List Token} (steady : Steady goals)
    (read : run goals sequence = .ok left) :
    Steady left := by
  induction sequence generalizing goals with
  | nil =>
      cases read
      exact steady
  | cons token rest inductionHypothesis =>
      rw [run] at read
      cases entered : enter goals token with
      | error refused =>
          rw [entered] at read
          cases read
      | ok behind =>
          rw [entered] at read
          exact inductionHypothesis (steady_enter steady entered) read

/-- A closing token goes past every goal that may be left out. -/
theorem take_closing
    (skips : goal.skippable = true) (closing : kind ∈ closingKinds) :
    goal.take kind = none := by
  simp only [closingKinds, List.mem_cons, List.not_mem_nil, or_false] at closing
  rcases closing with rfl | rfl | rfl | rfl <;>
    cases goal <;> first | rfl | cases skips

theorem exists_take_of_closes (closes : goal.closes = true) :
    ∃ kind ∈ closingKinds, goal.take kind = some [] := by
  cases goal with
  | token kind =>
      exact ⟨kind, of_decide_eq_true closes, if_pos rfl⟩
  | moreArguments =>
      exact ⟨.rparen, by decide, rfl⟩
  | _ =>
      cases closes

/-- A goal that may not be left out is reached by one token, apart from an
assignment, which needs two. -/
theorem exists_take_of_needed
    (needed : goal.skippable = false) (other : goal ≠ .assignment) :
    ∃ kind, goal.take kind = some [] := by
  cases goal with
  | token kind => exact ⟨kind, if_pos rfl⟩
  | operand => exact ⟨.number, rfl⟩
  | stmt => exact ⟨.semicolon, rfl⟩
  | arguments | moreArguments | params | moreParams => exact ⟨.rparen, rfl⟩
  | assignment => exact absurd rfl other
  | _ => cases needed

/-- Some token of a kind, with a text where the kind has one. -/
def filler (kind : Kind) : Token :=
  match kind with
  | .identifier => ⟨.identifier, some "x", ⟨1, 1⟩⟩
  | .number => ⟨.number, some "0", ⟨1, 1⟩⟩
  | .raw => ⟨.raw, some "", ⟨1, 1⟩⟩
  | kind => ⟨kind, none, ⟨1, 1⟩⟩

@[simp]
theorem kind_filler (kind : Kind) : (filler kind).kind = kind := by
  cases kind <;> rfl

theorem run_filler
    (taken : goal.take kind = some goals) (rest : List Token) :
    run (goal :: stack) (filler kind :: rest) = run (goals ++ stack) rest :=
  run_of_take (by rw [kind_filler]; exact taken)

/-- A steady stack can be cleared, and if it is guarded, by tokens that begin with a
closing one. -/
theorem exists_completion (steady : Steady stack) :
    (∃ later, run stack later = .ok []) ∧
      (Guarded stack →
        ∃ kind ∈ closingKinds, ∃ later,
          run stack (filler kind :: later) = .ok []) := by
  induction stack with
  | nil =>
      exact ⟨⟨[], rfl⟩, fun guarded => guarded.elim⟩
  | cons goal stack inductionHypothesis =>
      obtain ⟨guarded, steady⟩ := steady
      obtain ⟨⟨later, cleared⟩, closing⟩ := inductionHypothesis steady
      cases skips : goal.skippable with
      | true =>
          have trails : goal.trails = true := by
            cases goal <;> first | rfl | cases skips
          obtain ⟨kind, closes, later, cleared⟩ := closing (guarded trails)
          have passed :
              run (goal :: stack) (filler kind :: later) = .ok [] := by
            rw [run_of_skip _ skips]
            · exact cleared
            · rw [kind_filler]
              exact take_closing skips closes
          exact ⟨⟨_, passed⟩, fun _ => ⟨kind, closes, later, passed⟩⟩
      | false =>
          constructor
          · by_cases isAssignment : goal = .assignment
            · subst isAssignment
              obtain ⟨kind, closes, later, cleared⟩ := closing (guarded rfl)
              refine
                ⟨filler .assign :: filler .number :: filler kind :: later, ?_⟩
              rw [run_filler rfl, List.cons_append, run_filler rfl,
                List.nil_append, List.cons_append, run_of_skip _ rfl]
              · exact cleared
              · rw [kind_filler]
                exact take_closing rfl closes
            · obtain ⟨kind, taken⟩ := exists_take_of_needed skips isAssignment
              refine ⟨filler kind :: later, ?_⟩
              rw [run_filler taken]
              exact cleared
          · rintro (closes | ⟨isSkipped, _⟩)
            · obtain ⟨kind, isClosing, taken⟩ := exists_take_of_closes closes
              refine ⟨kind, isClosing, later, ?_⟩
              rw [run_filler taken]
              exact cleared
            · rw [skips] at isSkipped
              cases isSkipped

end Steady

/-- What is read without a refusal can be completed, and what is refused cannot. -/
theorem completable_up_to_refusal
    {sequence : List Token} {refused : Token}
    (failed : run start sequence = .error refused) :
    ∃ front rest,
      sequence = front ++ refused :: rest ∧
        (∃ later, accepts (front ++ later) = true) ∧
        ∀ later, accepts (front ++ refused :: later) = false := by
  obtain ⟨front, rest, left, split, read, stuck⟩ := exists_refused failed
  refine ⟨front, rest, split, ?_, fun later => ?_⟩
  · obtain ⟨later, cleared⟩ :=
      (exists_completion (steady_run steady_start read)).1
    refine ⟨later, accepts_iff.mpr ?_⟩
    rw [run_append, read]
    exact cleared
  · rw [Bool.eq_false_iff]
    intro accepted
    have cleared := accepts_iff.mp accepted
    rw [run_append, read] at cleared
    simp only [run, stuck] at cleared
    cases cleared

end FlatCode.Recognizer
