import FlatCode.Proofs.Grammar.CompleteProgram
import FlatCode.Proofs.Recognition.Machine

/-!
# What is derived is recognized

A derivation and the recognizer go through the same tokens: for each class of the
grammar there are goals that the recognizer clears while it reads the tokens of a
derivation.  `Moves` says so of the goals before and behind these tokens, for every
stack below them, so that one production follows another.

The levels of binary operators are one goal for the recognizer.  An expression of some
levels leaves this goal open, and it is left out at a token that is no binary operator.
-/

namespace FlatCode.Recognizer

open Token (Kind)
open Surface (Closed Detached nextKind binaryLevels unarySigns resultStarts
  SignsDerive LevelDerives OperandDerives ArgumentsDerive ValueDerives
  SemicolonDerives StmtDerives StmtsDerive ParamsDerive SignatureDerives
  FunctionDerives FunctionsDerive)
open FlatCode.Stmt (startsStatement)

/-! ## Moves -/

/-- With `last` behind all tokens, the recognizer replaces the goals `goals` by `left`
when it has read from `before` to `after`, whatever stack is below. -/
def Moves
    (last : Token) (goals left : List Goal) (before after : List Token) : Prop :=
  ∀ stack,
    run (goals ++ stack) (before ++ [last]) =
      run (left ++ stack) (after ++ [last])

/-- A goal that starts as another one does is read as that one. -/
theorem run_of_delegate
    {goal inner : Goal} {below stack : List Goal} {token : Token}
    {rest : List Token}
    (same : goal.take token.kind = (inner.take token.kind).map (· ++ below))
    (needed : inner.skippable = false)
    (taken : inner.take token.kind = none → goal.skippable = false) :
    run (goal :: stack) (token :: rest) =
      run (inner :: (below ++ stack)) (token :: rest) := by
  cases found : inner.take token.kind with
  | some first =>
      rw [found] at same
      rw [run_of_take same, run_of_take found, List.append_assoc]
  | none =>
      rw [found] at same
      rw [run_of_refuse same (taken found), run_of_refuse found needed]

namespace Moves

variable {last token : Token} {kind : Kind} {goal inner : Goal}
  {goals left added further below : List Goal}
  {before middle rest after : List Token}

theorem refl : Moves last goals goals before before :=
  fun _ => rfl

theorem trans
    (first : Moves last goals left before middle)
    (second : Moves last left further middle after) :
    Moves last goals further before after :=
  fun stack => (first stack).trans (second stack)

/-- More goals below. -/
theorem above
    (moves : Moves last goals left before after) (below : List Goal) :
    Moves last (goals ++ below) (left ++ below) before after := by
  intro stack
  rw [List.append_assoc, List.append_assoc]
  exact moves (below ++ stack)

theorem step
    (fits : token.kind = kind) (taken : goal.take kind = some added) :
    Moves last (goal :: goals) (added ++ goals) (token :: rest) rest := by
  intro stack
  rw [List.append_assoc]
  exact run_of_take (by rw [fits]; exact taken)

/-- A token that is all that a goal asks for. -/
theorem clear
    (fits : token.kind = kind) (taken : goal.take kind = some []) :
    Moves last (goal :: goals) goals (token :: rest) rest :=
  step fits taken

variable (isLast : last.kind = .eof)

include isLast

theorem skip
    (skips : goal.skippable = true)
    (foreign : goal.take (nextKind rest) = none) :
    Moves last (goal :: goals) goals rest rest := by
  intro stack
  cases rest with
  | nil =>
      exact run_of_skip (by rw [isLast]; exact foreign) skips
  | cons token rest =>
      exact run_of_skip foreign skips

theorem delegate
    (same :
      goal.take (nextKind rest) =
        (inner.take (nextKind rest)).map (· ++ below))
    (needed : inner.skippable = false)
    (taken : inner.take (nextKind rest) = none → goal.skippable = false) :
    Moves last (goal :: goals) (inner :: (below ++ goals)) rest rest := by
  intro stack
  have append :
      inner :: (below ++ goals) ++ stack = inner :: (below ++ (goals ++ stack)) := by
    rw [List.cons_append, List.append_assoc]
  rw [append]
  cases rest with
  | nil =>
      rw [Token.nextKind_nil, ← isLast] at same taken
      exact run_of_delegate same needed taken
  | cons token rest =>
      exact run_of_delegate same needed taken

/-- A goal that has one alternative more than another one, which is absent. -/
theorem alternative
    {absent : Kind}
    (same : ∀ kind, kind ≠ absent →
      goal.take kind = (inner.take kind).map (· ++ below))
    (needed : inner.skippable = false) (firm : goal.skippable = false)
    (other : nextKind rest ≠ absent) :
    Moves last (goal :: goals) (inner :: (below ++ goals)) rest rest :=
  .delegate isLast (same _ other) needed fun _ => firm

end Moves

/-! ## Tokens that goals take -/

theorem take_operators
    {kind : Kind} (member : kind ∈ binaryLevels.flatten) :
    Goal.operators.take kind = some [.operand, .operators] :=
  if_pos member

theorem take_operators_none
    {kind : Kind} (foreign : kind ∉ binaryLevels.flatten) :
    Goal.operators.take kind = none :=
  if_neg foreign

theorem take_access_none
    {after : List Token} (detached : Detached after) :
    Goal.access.take (nextKind after) = none := by
  simp only [Detached, List.mem_cons, List.not_mem_nil, or_false,
    not_or] at detached
  simp only [Goal.take]
  split
  · next opens => exact (detached.1 opens).elim
  · next opens => exact (detached.2 opens).elim
  · rfl

theorem isSome_takeStmt (kind : Kind) :
    (Goal.takeStmt kind).isSome = startsStatement kind := by
  cases kind <;> rfl

theorem take_operand_of_sign :
    ∀ kind ∈ unarySigns, Goal.operand.take kind = some [.operand] := by
  decide

theorem isSome_takeOperand_of_result :
    ∀ kind ∈ resultStarts, (Goal.takeOperand kind).isSome = true := by
  decide

/-! ## Expressions -/

section Expressions

variable {last name opening close sign : Token}
  {before middle rest after : List Token}

theorem moves_of_signs
    {signs : List Kind} (derived : SignsDerive signs before middle) :
    Moves last [.operand] [.operand] before middle := by
  induction derived with
  | nil after =>
      exact .refl
  | cons isSign _ inductionHypothesis =>
      have taken := take_operand_of_sign _ isSign
      exact (Moves.step rfl taken).trans inductionHypothesis

theorem occupied_of_arguments
    {trees : List Surface.Expr} (derived : ArgumentsDerive trees before after) :
    nextKind before ≠ .rparen := by
  have starts := derived.starts
  intro closed
  rw [closed] at starts
  revert starts
  decide

theorem moves_binary
    (left : Moves last [.operand, .operators] [.operators] before (sign :: middle))
    (member : sign.kind ∈ binaryLevels.flatten)
    (right : Moves last [.operand, .operators] [.operators] middle after) :
    Moves last [.operand, .operators] [.operators] before after := by
  refine left.trans ?_
  exact (Moves.step rfl (take_operators member)).trans right

variable (isLast : last.kind = .eof)

include isLast

/-- At a token that is no operator the rest of an expression is left out. -/
theorem moves_stop
    {goals : List Goal} (foreign : nextKind after ∉ binaryLevels.flatten) :
    Moves last (.operators :: goals) goals after after :=
  .skip isLast rfl (take_operators_none foreign)

/-- An expression in front of a token that is needed. -/
theorem moves_enclosed
    (moves : Moves last [.operand, .operators] [.operators] before (close :: after))
    {kind : Kind} (fits : close.kind = kind)
    (foreign : kind ∉ binaryLevels.flatten) (below : List Goal) :
    Moves last (.operand :: .operators :: .token kind :: below) below before
      after := by
  refine (moves.above (.token kind :: below)).trans ?_
  refine (moves_stop isLast ?_).trans (.clear fits (if_pos rfl))
  rw [Token.nextKind_cons, fits]
  exact foreign

theorem moves_index
    (identifier : name.kind = .identifier) (opens : opening.kind = .lbracket)
    (moves : Moves last [.operand, .operators] [.operators] rest (close :: after))
    (closes : close.kind = .rbracket) :
    Moves last [.operand] [] (name :: opening :: rest) after := by
  refine (Moves.step identifier rfl).trans ?_
  refine (Moves.step opens rfl).trans ?_
  exact moves_enclosed isLast moves closes (by decide) []

theorem moves_group
    (opens : opening.kind = .lparen)
    (moves : Moves last [.operand, .operators] [.operators] rest (close :: after))
    (closes : close.kind = .rparen) :
    Moves last [.operand] [] (opening :: rest) after := by
  refine (Moves.step opens rfl).trans ?_
  exact moves_enclosed isLast moves closes (by decide) []

/-- Arguments that are there. -/
theorem moves_arguments
    (occupied : nextKind before ≠ .rparen) :
    Moves last [.arguments] [.operand, .operators, .moreArguments] before
      before := by
  have same : ∀ kind, kind ≠ .rparen →
      Goal.arguments.take kind =
        (Goal.operand.take kind).map (· ++ [.operators, .moreArguments]) :=
    fun _ other => if_neg other
  exact .alternative isLast same rfl rfl occupied

theorem moves_call
    (identifier : name.kind = .identifier) (opens : opening.kind = .lparen)
    (occupied : nextKind rest ≠ .rparen)
    (moves :
      Moves last [.operand, .operators, .moreArguments] [.moreArguments] rest
        (close :: after))
    (closes : close.kind = .rparen) :
    Moves last [.operand] [] (name :: opening :: rest) after := by
  refine (Moves.step identifier rfl).trans ?_
  refine (Moves.step opens rfl).trans ?_
  refine (moves_arguments isLast occupied).trans ?_
  exact moves.trans (.clear closes rfl)

theorem moves_more
    (first : Moves last [.operand, .operators] [.operators] before (sign :: rest))
    (separates : sign.kind = .comma)
    (others :
      Moves last [.operand, .operators, .moreArguments] [.moreArguments] rest
        after) :
    Moves last [.operand, .operators, .moreArguments] [.moreArguments] before
      after := by
  refine (first.above [.moreArguments]).trans ?_
  refine (moves_stop isLast ?_).trans ((Moves.step separates rfl).trans others)
  rw [Token.nextKind_cons, separates]
  decide

end Expressions

mutual

/-- An expression of some levels leaves the goal of further operators open. -/
theorem moves_of_level
    {last : Token} (isLast : last.kind = .eof)
    {levels : List (List Kind)} {tree : Surface.Expr}
    {before after : List Token} (within : levels ⊆ binaryLevels)
    (detached : Detached after) :
    LevelDerives levels tree before after →
      Moves last [.operand, .operators] [.operators] before after
  | .signed signs operand =>
      (Moves.trans (moves_of_signs signs)
        (moves_of_operand isLast detached operand)).above [.operators]
  | .tighter level inner =>
      moves_of_level isLast (List.Subset.trans (List.subset_cons_self _ _) within)
        detached inner
  | .binary lhs member rhs =>
      have known : _ ∈ binaryLevels.flatten :=
        List.mem_flatten.mpr ⟨_, within List.mem_cons_self, member⟩
      moves_binary
        (moves_of_level isLast within (Surface.detached_of_sign known) lhs) known
        (moves_of_level isLast
          (List.Subset.trans (List.subset_cons_self _ _) within) detached rhs)

theorem moves_of_operand
    {last : Token} (isLast : last.kind = .eof)
    {tree : Surface.Expr} {before after : List Token}
    (detached : Detached after) :
    OperandDerives tree before after →
      Moves last [.operand] [] before after
  | .number _ number => .clear number rfl
  | .word _ identifier =>
      .trans (.step identifier rfl)
        (.skip isLast rfl (take_access_none detached))
  | .index identifier opens inner closes =>
      moves_index isLast identifier opens
        (moves_of_level isLast (List.Subset.refl _) (by simp [Detached, closes])
          inner)
        closes
  | .callEmpty _ identifier opens closes =>
      .trans (.step identifier rfl)
        (.trans (.step opens rfl) (.clear closes rfl))
  | .call identifier opens args closes =>
      moves_call isLast identifier opens (occupied_of_arguments args)
        (moves_of_args isLast (by simp [Detached, closes])
          (by simp [closes, binaryLevels]) args)
        closes
  | .group opens inner closes =>
      moves_group isLast opens
        (moves_of_level isLast (List.Subset.refl _) (by simp [Detached, closes])
          inner)
        closes

theorem moves_of_args
    {last : Token} (isLast : last.kind = .eof)
    {trees : List Surface.Expr} {before after : List Token}
    (detached : Detached after)
    (foreign : nextKind after ∉ binaryLevels.flatten) :
    ArgumentsDerive trees before after →
      Moves last [.operand, .operators, .moreArguments] [.moreArguments] before
        after
  | .last first =>
      ((moves_of_level isLast (List.Subset.refl _) detached first).above
        [.moreArguments]).trans (moves_stop isLast foreign)
  | .more first separates others =>
      moves_more isLast
        (moves_of_level isLast (List.Subset.refl _)
          (by simp [Detached, separates]) first)
        separates (moves_of_args isLast detached foreign others)

end

/-! ## Statements -/

section Statements

variable {last word opening close sign between : Token} {tree : Surface.Expr}
  {before middle rest behind later after : List Token}

variable (isLast : last.kind = .eof)

include isLast

theorem moves_of_value
    (derived : ValueDerives tree before after) (detached : Detached after) :
    Moves last [.operand, .operators] [] before after :=
  (moves_of_level isLast (List.Subset.refl _) detached derived.1).trans
    (moves_stop isLast derived.2)

theorem moves_of_semicolon
    (derived : SemicolonDerives middle after) :
    Moves last [.semicolon] [] middle after := by
  cases derived with
  | taken _ isSemicolon =>
      exact .clear isSemicolon rfl
  | absent foreign =>
      exact .skip isLast rfl (if_neg foreign)

/-- An expression and the semicolon behind it. -/
theorem moves_of_ended_value
    (value : ValueDerives tree before middle)
    (semicolon : SemicolonDerives middle after) (detached : Detached after) :
    Moves last [.operand, .operators, .semicolon] [] before after :=
  ((moves_of_value isLast value (semicolon.detached detached)).above
    [.semicolon]).trans (moves_of_semicolon isLast semicolon)

theorem moves_of_enclosed
    (derived : LevelDerives binaryLevels tree before (close :: after))
    {kind : Kind} (closes : close.kind = kind)
    (foreign : kind ∉ binaryLevels.flatten)
    (apart : kind ∉ [Kind.lparen, .lbracket]) (below : List Goal) :
    Moves last (.operand :: .operators :: .token kind :: below) below before
      after := by
  have detached : Detached (close :: after) := by
    rw [Detached, Token.nextKind_cons, closes]
    exact apart
  exact
    moves_enclosed isLast
      (moves_of_level isLast (List.Subset.refl _) detached derived) closes
      foreign below

/-- A condition in parentheses. -/
theorem moves_of_condition
    (opens : opening.kind = .lparen)
    (derived : LevelDerives binaryLevels tree rest (close :: after))
    (closes : close.kind = .rparen) (below : List Goal) :
    Moves last
      (.token .lparen :: .operand :: .operators :: .token .rparen :: below) below
      (opening :: rest) after :=
  (Moves.clear opens rfl).trans
    (moves_of_enclosed isLast derived closes (by decide) (by decide) below)

theorem moves_assign
    (identifier : word.kind = .identifier) (isSign : sign.kind = .assign)
    (value : ValueDerives tree rest middle)
    (semicolon : SemicolonDerives middle after) (detached : Detached after) :
    Moves last [.stmt] [] (word :: sign :: rest) after := by
  refine (Moves.step identifier rfl).trans ?_
  refine (Moves.step isSign rfl).trans ?_
  exact moves_of_ended_value isLast value semicolon detached

theorem moves_store
    {index : Surface.Expr} (identifier : word.kind = .identifier)
    (opens : opening.kind = .lbracket)
    (derived : LevelDerives binaryLevels index rest (close :: sign :: behind))
    (closes : close.kind = .rbracket) (isSign : sign.kind = .assign)
    (value : ValueDerives tree behind middle)
    (semicolon : SemicolonDerives middle after) (detached : Detached after) :
    Moves last [.stmt] [] (word :: opening :: rest) after := by
  refine (Moves.step identifier rfl).trans ?_
  refine (Moves.step opens rfl).trans ?_
  refine
    (moves_of_enclosed isLast derived closes (by decide) (by decide) _).trans ?_
  refine (Moves.clear isSign rfl).trans ?_
  exact moves_of_ended_value isLast value semicolon detached

theorem moves_ifThen
    (isIf : word.kind = .kwIf) (opens : opening.kind = .lparen)
    (condition : LevelDerives binaryLevels tree rest (close :: behind))
    (closes : close.kind = .rparen)
    (thenBranch : Moves last [.stmt] [] behind after)
    (noElse : nextKind after ≠ .kwElse) :
    Moves last [.stmt] [] (word :: opening :: rest) after := by
  refine (Moves.step isIf rfl).trans ?_
  refine (moves_of_condition isLast opens condition closes _).trans ?_
  exact (thenBranch.above [.elseBranch]).trans (.skip isLast rfl (if_neg noElse))

theorem moves_ifElse
    (isIf : word.kind = .kwIf) (opens : opening.kind = .lparen)
    (condition : LevelDerives binaryLevels tree rest (close :: behind))
    (closes : close.kind = .rparen)
    (thenBranch : Moves last [.stmt] [] behind (between :: later))
    (isElse : between.kind = .kwElse)
    (elseBranch : Moves last [.stmt] [] later after) :
    Moves last [.stmt] [] (word :: opening :: rest) after := by
  refine (Moves.step isIf rfl).trans ?_
  refine (moves_of_condition isLast opens condition closes _).trans ?_
  refine (thenBranch.above [.elseBranch]).trans ?_
  exact (Moves.step isElse rfl).trans elseBranch

theorem moves_loop
    (isWhile : word.kind = .kwWhile) (opens : opening.kind = .lparen)
    (condition : LevelDerives binaryLevels tree rest (close :: behind))
    (closes : close.kind = .rparen)
    (body : Moves last [.stmt] [] behind after) :
    Moves last [.stmt] [] (word :: opening :: rest) after := by
  refine (Moves.step isWhile rfl).trans ?_
  exact (moves_of_condition isLast opens condition closes _).trans body

theorem moves_ret
    (isReturn : word.kind = .kwReturn) (foreign : nextKind rest ∉ resultStarts)
    (semicolon : SemicolonDerives rest after) :
    Moves last [.stmt] [] (word :: rest) after := by
  refine (Moves.step isReturn rfl).trans ?_
  have skipped : Goal.result.take (nextKind rest) = none := if_neg foreign
  exact (Moves.skip isLast rfl skipped).trans (moves_of_semicolon isLast semicolon)

/-- A result that is there. -/
theorem moves_result
    (starts : nextKind before ∈ resultStarts) (goals : List Goal) :
    Moves last (.result :: goals) (.operand :: .operators :: goals) before
      before := by
  have same :
      Goal.result.take (nextKind before) =
        (Goal.operand.take (nextKind before)).map (· ++ [.operators]) :=
    if_pos starts
  refine .delegate isLast same rfl fun refused => ?_
  have taken := isSome_takeOperand_of_result _ starts
  rw [show Goal.takeOperand _ = none from refused] at taken
  cases taken

theorem moves_retValue
    (isReturn : word.kind = .kwReturn) (starts : nextKind rest ∈ resultStarts)
    (value : ValueDerives tree rest middle)
    (semicolon : SemicolonDerives middle after) (detached : Detached after) :
    Moves last [.stmt] [] (word :: rest) after := by
  refine (Moves.step isReturn rfl).trans ?_
  refine (moves_result isLast starts [.semicolon]).trans ?_
  exact moves_of_ended_value isLast value semicolon detached

/-- Statements that are there. -/
theorem moves_stmts
    (starts : startsStatement (nextKind before) = true) :
    Moves last [.stmts] [.stmt, .stmts] before before := by
  have same :
      Goal.stmts.take (nextKind before) =
        (Goal.stmt.take (nextKind before)).map (· ++ [.stmts]) :=
    rfl
  refine .delegate isLast same rfl fun refused => ?_
  rw [← isSome_takeStmt, show Goal.takeStmt _ = none from refused] at starts
  cases starts

theorem moves_no_stmts
    (foreign : startsStatement (nextKind before) = false) :
    Moves last [.stmts] [] before before := by
  rw [← isSome_takeStmt, Option.isSome_eq_false_iff, Option.isNone_iff_eq_none]
    at foreign
  refine .skip isLast rfl ?_
  simp only [Goal.take, foreign, Option.map_none]

mutual

theorem moves_of_stmt
    {tree : Surface.Stmt} {before after : List Token}
    (detached : Detached after) :
    StmtDerives tree before after → Moves last [.stmt] [] before after
  | .assign identifier isSign value semicolon =>
      moves_assign isLast identifier isSign value semicolon detached
  | .store identifier opens index closes isSign value semicolon =>
      moves_store isLast identifier opens index closes isSign value semicolon
        detached
  | .ifThen isIf opens condition closes thenBranch noElse =>
      moves_ifThen isLast isIf opens condition closes
        (moves_of_stmt detached thenBranch) noElse
  | .ifElse isIf opens condition closes thenBranch isElse elseBranch =>
      moves_ifElse isLast isIf opens condition closes
        (moves_of_stmt (by simp [Detached, isElse]) thenBranch) isElse
        (moves_of_stmt detached elseBranch)
  | .loop isWhile opens condition closes body =>
      moves_loop isLast isWhile opens condition closes
        (moves_of_stmt detached body)
  | .ret isReturn foreign semicolon =>
      moves_ret isLast isReturn foreign semicolon
  | .retValue isReturn starts value semicolon =>
      moves_retValue isLast isReturn starts value semicolon detached
  | .leave isBreak semicolon =>
      .trans (.step isBreak rfl) (moves_of_semicolon isLast semicolon)
  | .again isContinue semicolon =>
      .trans (.step isContinue rfl) (moves_of_semicolon isLast semicolon)
  | .raw _ isRaw =>
      .clear isRaw rfl
  | .block opens body closes =>
      .trans (.step opens rfl)
        (((moves_of_stmts (by simp [Closed, closes]) body).above
          [.token .rbrace]).trans (.clear closes rfl))
  | .empty _ isSemicolon =>
      .clear isSemicolon rfl

theorem moves_of_stmts
    {trees : List Surface.Stmt} {before after : List Token}
    (closed : Closed after) :
    StmtsDerive trees before after → Moves last [.stmts] [] before after
  | .nil _ =>
      moves_no_stmts isLast closed.not_starts
  | .cons first others =>
      (moves_stmts isLast first.starts).trans
        (((moves_of_stmt (others.detached closed) first).above [.stmts]).trans
          (moves_of_stmts closed others))

end

end Statements

/-! ## Programs -/

section Programs

variable {last : Token} {before middle after : List Token}

theorem moves_of_params
    {names : List String} (derived : ParamsDerive names before after) :
    Moves last [.token .identifier, .moreParams] [.moreParams] before after := by
  induction derived with
  | last after identifier =>
      exact .clear identifier rfl
  | more identifier separates _ inductionHypothesis =>
      refine (Moves.clear identifier rfl).trans ?_
      exact (Moves.step separates rfl).trans inductionHypothesis

theorem moves_of_signature
    {params : List String} (derived : SignatureDerives params before after) :
    Moves last [.token .lparen, .params] [] before after := by
  cases derived with
  | none _ opens closes =>
      exact (Moves.clear opens rfl).trans (.clear closes rfl)
  | some opens inner closes =>
      refine (Moves.clear opens rfl).trans ?_
      cases inner with
      | last _ identifier =>
          exact (Moves.step identifier rfl).trans (.clear closes rfl)
      | more identifier separates others =>
          refine (Moves.step identifier rfl).trans ?_
          refine (Moves.step separates rfl).trans ?_
          exact (moves_of_params others).trans (.clear closes rfl)

variable (isLast : last.kind = .eof)

include isLast

theorem moves_of_function
    {tree : Surface.Function} (derived : FunctionDerives tree before after) :
    Moves last [.definitions] [.definitions] before after := by
  cases derived with
  | mk isDef identifier signature opens body closes =>
      have inner :=
        (moves_of_stmts isLast (by simp [Closed, closes]) body).above
          [.token .rbrace, .definitions]
      refine (Moves.step isDef rfl).trans ?_
      refine (Moves.clear identifier rfl).trans ?_
      refine
        ((moves_of_signature signature).above
          [.token .lbrace, .stmts, .token .rbrace, .definitions]).trans ?_
      refine (Moves.clear opens rfl).trans ?_
      exact inner.trans (.clear closes rfl)

theorem moves_of_functions
    {trees : List Surface.Function} (derived : FunctionsDerive trees before after)
    (noMore : nextKind after ≠ .kwDef) :
    Moves last [.definitions] [] before after := by
  induction derived with
  | nil after =>
      exact .skip isLast rfl (if_neg noMore)
  | cons first _ inductionHypothesis =>
      exact (moves_of_function isLast first).trans (inductionHypothesis noMore)

end Programs

/-- A derived sequence is accepted. -/
theorem accepts_of_derives
    {tree : Surface.Program} {sequence : List Token}
    (derived : tree.Derives sequence) :
    accepts sequence = true := by
  obtain ⟨tokens, last, middle, rfl, isLast, functions, main⟩ := derived
  have atEnd : Closed [] := by simp [Closed]
  have functionsMove :=
    (moves_of_functions isLast functions (main.no_definition atEnd)).above [.stmts]
  have moves := functionsMove.trans (moves_of_stmts isLast atEnd main)
  have ended : (Goal.token .eof).take last.kind = some [] := if_pos isLast
  rw [accepts_iff]
  calc run start (tokens ++ [last])
      = run [.token .eof] [last] := moves [.token .eof]
    _ = .ok [] := run_of_take ended

end FlatCode.Recognizer
