import FlatCode.Proofs.Recognition.Derived

/-!
# What is recognized is derived

The recognizer keeps no tree.  A run that clears its stack is first written down as a
list of steps, `Clears`, which can be cut where a goal is cleared.  From the steps of
one goal the derivation of its class is put together again, the shortest token lists
first.

The recognizer does not tell the levels of binary operators apart.  A further operand
is attached to a derivation at the level of its operator: to the whole expression or,
if the operator binds tighter than that, to the right operand.
-/

namespace FlatCode.Recognizer

open Token (Kind)
open Surface (nextKind binaryLevels unarySigns LevelDerives OperandDerives
  ArgumentsDerive ValueDerives SemicolonDerives StmtDerives StmtsDerive ParamsDerive
  SignatureDerives FunctionDerives FunctionsDerive)

/-! ## Steps -/

/-- The recognizer clears the given goals while it reads from `before` to `after`. -/
inductive Clears : List Goal → List Token → List Token → Prop
  | done (after : List Token) : Clears [] after after
  | take {goal : Goal} {added stack : List Goal} {token : Token}
      {rest after : List Token} (taken : goal.take token.kind = some added)
      (later : Clears (added ++ stack) rest after) :
      Clears (goal :: stack) (token :: rest) after
  | skip {goal : Goal} {stack : List Goal} {before after : List Token}
      (skips : goal.skippable = true)
      (foreign : goal.take (nextKind before) = none)
      (later : Clears stack before after) :
      Clears (goal :: stack) before after

namespace Clears

variable {goal other : Goal} {goals stack : List Goal} {token : Token}
  {before middle rest after : List Token}

theorem eq_of_nil (clears : Clears [] before after) : before = after := by
  cases clears with
  | done _ => rfl

theorem length_le (clears : Clears goals before after) :
    after.length ≤ before.length := by
  induction clears with
  | done _ =>
      exact Nat.le_refl _
  | take _ _ inductionHypothesis =>
      exact Nat.le_succ_of_le inductionHypothesis
  | skip _ _ _ inductionHypothesis =>
      exact inductionHypothesis

/-- The steps up to where the upper goals are cleared. -/
theorem append (clears : Clears (goals ++ stack) before after) :
    ∃ middle, Clears goals before middle ∧ Clears stack middle after := by
  generalize joined : goals ++ stack = whole at clears
  induction clears generalizing goals with
  | done after =>
      obtain ⟨rfl, rfl⟩ := List.append_eq_nil_iff.mp joined
      exact ⟨after, .done after, .done after⟩
  | @take goal added below token rest after taken later inductionHypothesis =>
      cases goals with
      | nil =>
          obtain rfl := joined
          exact ⟨_, .done _, .take taken later⟩
      | cons first others =>
          obtain ⟨rfl, rfl⟩ := List.cons.inj joined
          obtain ⟨middle, upper, lower⟩ :=
            inductionHypothesis (List.append_assoc added others stack)
          exact ⟨middle, .take taken upper, lower⟩
  | @skip goal below before after skips foreign later inductionHypothesis =>
      cases goals with
      | nil =>
          obtain rfl := joined
          exact ⟨_, .done _, .skip skips foreign later⟩
      | cons first others =>
          obtain ⟨rfl, rfl⟩ := List.cons.inj joined
          obtain ⟨middle, upper, lower⟩ := inductionHypothesis rfl
          exact ⟨middle, .skip skips foreign upper, lower⟩

/-- The steps up to where the first goal is cleared. -/
theorem first (clears : Clears (goal :: stack) before after) :
    ∃ middle, Clears [goal] before middle ∧ Clears stack middle after :=
  append clears

/-- The steps up to where the first two goals are cleared. -/
theorem pair (clears : Clears (goal :: other :: stack) before after) :
    ∃ middle, Clears [goal, other] before middle ∧ Clears stack middle after :=
  append (show Clears ([goal, other] ++ stack) before after from clears)

/-- The first step of a single goal. -/
theorem cases_single (clears : Clears [goal] before after) :
    (∃ token rest added,
      before = token :: rest ∧ goal.take token.kind = some added ∧
        Clears added rest after) ∨
      goal.skippable = true ∧ goal.take (nextKind before) = none ∧
        before = after := by
  cases clears with
  | take taken later =>
      rw [List.append_nil] at later
      exact Or.inl ⟨_, _, _, rfl, taken, later⟩
  | skip skips foreign later =>
      exact Or.inr ⟨skips, foreign, later.eq_of_nil⟩

/-- A goal that may not be left out takes a token. -/
theorem cases_needed
    (clears : Clears [goal] before after) (needed : goal.skippable = false) :
    ∃ token rest added,
      before = token :: rest ∧ goal.take token.kind = some added ∧
        Clears added rest after := by
  rcases clears.cases_single with taken | ⟨skips, _, _⟩
  · exact taken
  · rw [needed] at skips
    cases skips

theorem length_lt
    (clears : Clears [goal] before after) (needed : goal.skippable = false) :
    after.length < before.length := by
  obtain ⟨token, rest, added, rfl, _, later⟩ := clears.cases_needed needed
  exact Nat.lt_succ_of_le later.length_le

/-- The steps behind a token that is needed. -/
theorem behind_token
    {kind : Kind} (clears : Clears (.token kind :: stack) before after) :
    ∃ token rest,
      before = token :: rest ∧ token.kind = kind ∧ Clears stack rest after := by
  cases clears with
  | take taken later =>
      simp only [Goal.take] at taken
      split at taken
      · next fits =>
          cases taken
          exact ⟨_, _, rfl, fits, later⟩
      · cases taken
  | skip skips _ _ =>
      cases skips

end Clears

/-- One token that is read, with the end of the input as the last goal. -/
theorem cases_enter
    {goals left : List Goal} {token : Token}
    (entered : enter (goals ++ [.token .eof]) token = .ok left) :
    (∃ further,
      left = further ++ [.token .eof] ∧
        ∀ rest after, Clears further rest after →
          Clears goals (token :: rest) after) ∨
      token.kind = .eof ∧ left = [] ∧ Clears goals [] [] := by
  induction goals with
  | nil =>
      rw [List.nil_append, enter] at entered
      by_cases isEnd : token.kind = .eof
      · rw [isEnd] at entered
        cases entered
        exact Or.inr ⟨isEnd, rfl, .done []⟩
      · have foreign : (Goal.token .eof).take token.kind = none := if_neg isEnd
        rw [foreign] at entered
        cases entered
  | cons goal goals inductionHypothesis =>
      rw [List.cons_append] at entered
      cases taken : goal.take token.kind with
      | some added =>
          rw [enter_of_take taken] at entered
          cases entered
          refine Or.inl ⟨added ++ goals, (List.append_assoc ..).symm, ?_⟩
          exact fun rest after clears => .take taken clears
      | none =>
          cases skips : goal.skippable with
          | false =>
              rw [enter_of_refuse taken skips] at entered
              cases entered
          | true =>
              rw [enter_of_skip taken skips] at entered
              rcases inductionHypothesis entered with
                ⟨further, rfl, clears⟩ | ⟨isEnd, rfl, clears⟩
              · refine Or.inl ⟨further, rfl, fun rest after later => ?_⟩
                exact .skip skips taken (clears rest after later)
              · rw [isEnd] at taken
                exact Or.inr ⟨isEnd, rfl, .skip skips taken clears⟩

/-- A run that clears its stack, without the end of the input. -/
theorem clears_of_run
    {goals : List Goal} {sequence : List Token}
    (cleared : run (goals ++ [.token .eof]) sequence = .ok []) :
    ∃ tokens last,
      sequence = tokens ++ [last] ∧ last.kind = .eof ∧
        Clears goals tokens [] := by
  induction sequence generalizing goals with
  | nil =>
      simp [run] at cleared
  | cons token rest inductionHypothesis =>
      rw [run] at cleared
      cases entered : enter (goals ++ [.token .eof]) token with
      | error refused =>
          rw [entered] at cleared
          cases cleared
      | ok left =>
          rw [entered] at cleared
          rcases cases_enter entered with
            ⟨further, rfl, clears⟩ | ⟨isEnd, rfl, clears⟩
          · obtain ⟨tokens, last, rfl, isLast, later⟩ :=
              inductionHypothesis cleared
            exact ⟨token :: tokens, last, rfl, isLast, clears tokens [] later⟩
          · cases rest with
            | nil =>
                exact ⟨[], token, rfl, isEnd, clears⟩
            | cons next later =>
                cases cleared

/-! ## Levels of binary operators -/

theorem level_of_operand
    (levels : List (List Kind)) {tree : Surface.Expr} {before after : List Token}
    (derived : LevelDerives [] tree before after) :
    LevelDerives levels tree before after := by
  induction levels with
  | nil =>
      exact derived
  | cons level tighter inductionHypothesis =>
      exact .tighter level inductionHypothesis

/-- A further operand is attached at the level of its operator. -/
theorem attach
    {levels : List (List Kind)} {lhs rhs : Surface.Expr} {sign : Token}
    {before middle after : List Token}
    (left : LevelDerives levels lhs before (sign :: middle))
    (member : sign.kind ∈ levels.flatten)
    (right : LevelDerives [] rhs middle after) :
    ∃ tree, LevelDerives levels tree before after := by
  induction levels generalizing lhs before with
  | nil =>
      cases member
  | cons level tighter inductionHypothesis =>
      by_cases own : sign.kind ∈ level
      · exact ⟨_, .binary left own (level_of_operand tighter right)⟩
      · have inside : sign.kind ∈ tighter.flatten := by
          rw [List.flatten_cons, List.mem_append] at member
          exact member.resolve_left own
        cases left with
        | tighter _ inner =>
            obtain ⟨tree, derived⟩ := inductionHypothesis inner inside
            exact ⟨tree, .tighter level derived⟩
        | binary outer isSign inner =>
            obtain ⟨tree, derived⟩ := inductionHypothesis inner inside
            exact ⟨_, .binary outer isSign derived⟩

/-! ## Expressions -/

theorem takeOperand_cases
    {kind : Kind} {added : List Goal}
    (taken : Goal.operand.take kind = some added) :
    kind ∈ unarySigns ∧ added = [.operand] ∨
      kind = .number ∧ added = [] ∨
      kind = .identifier ∧ added = [.access] ∨
      kind = .lparen ∧ added = [.operand, .operators, .token .rparen] := by
  simp only [Goal.take, Goal.takeOperand] at taken
  split at taken <;> cases taken <;> simp [unarySigns]

theorem operators_cases
    {kind : Kind} {added : List Goal}
    (taken : Goal.operators.take kind = some added) :
    kind ∈ binaryLevels.flatten ∧ added = [.operand, .operators] := by
  simp only [Goal.take] at taken
  split at taken
  · next member =>
      cases taken
      exact ⟨member, rfl⟩
  · cases taken

theorem access_cases
    {kind : Kind} {added : List Goal}
    (taken : Goal.access.take kind = some added) :
    kind = .lparen ∧ added = [.arguments] ∨
      kind = .lbracket ∧ added = [.operand, .operators, .token .rbracket] := by
  simp only [Goal.take] at taken
  split at taken <;> cases taken <;> simp

theorem moreArguments_cases
    {kind : Kind} {added : List Goal}
    (taken : Goal.moreArguments.take kind = some added) :
    kind = .comma ∧ added = [.operand, .operators, .moreArguments] ∨
      kind = .rparen ∧ added = [] := by
  simp only [Goal.take] at taken
  split at taken <;> cases taken <;> simp

/-- Arguments are none, or they start with an expression. -/
theorem arguments_cases
    {before after : List Token} (clears : Clears [.arguments] before after) :
    (∃ close, before = close :: after ∧ close.kind = .rparen) ∨
      Clears [.operand, .operators, .moreArguments] before after := by
  obtain ⟨token, rest, added, rfl, taken, later⟩ := clears.cases_needed rfl
  simp only [Goal.take] at taken
  split at taken
  · next closes =>
      cases taken
      obtain rfl := later.eq_of_nil
      exact Or.inl ⟨token, rfl, closes⟩
  · obtain ⟨first, operandTaken, rfl⟩ := Option.map_eq_some_iff.mp taken
    exact Or.inr (.take operandTaken later)

mutual

theorem operand_of_clears
    {before after : List Token} (clears : Clears [.operand] before after) :
    ∃ tree, LevelDerives [] tree before after := by
  obtain ⟨token, rest, added, split, taken, later⟩ := clears.cases_needed rfl
  have shorter : rest.length < before.length := by simp [split]
  subst split
  rcases takeOperand_cases taken with
    ⟨isSign, rfl⟩ | ⟨isNumber, rfl⟩ | ⟨isName, rfl⟩ | ⟨opens, rfl⟩
  · obtain ⟨tree, derived⟩ := operand_of_clears later
    cases derived with
    | signed signs operand =>
        exact ⟨_, .signed (.cons isSign signs) operand⟩
  · obtain rfl := later.eq_of_nil
    exact ⟨_, .signed (.nil _) (.number _ isNumber)⟩
  · obtain ⟨tree, derived⟩ := access_of_clears isName later
    exact ⟨_, .signed (.nil _) derived⟩
  · obtain ⟨tree, close, derived, closes⟩ := enclosed_of_clears later
    exact ⟨_, .signed (.nil _) (.group opens derived closes)⟩
termination_by (before.length, 0)

theorem access_of_clears
    {name : Token} {rest after : List Token} (isName : name.kind = .identifier)
    (clears : Clears [.access] rest after) :
    ∃ tree, OperandDerives tree (name :: rest) after := by
  rcases clears.cases_single with
    ⟨token, behind, added, split, taken, later⟩ | ⟨_, _, rfl⟩
  · have shorter : behind.length < rest.length := by simp [split]
    subst split
    rcases access_cases taken with ⟨opens, rfl⟩ | ⟨opens, rfl⟩
    · rcases arguments_cases later with ⟨close, rfl, closes⟩ | inner
      · exact ⟨_, .callEmpty after isName opens closes⟩
      · obtain ⟨trees, close, derived, closes⟩ := arguments_of_clears inner
        exact ⟨_, .call isName opens derived closes⟩
    · obtain ⟨tree, close, derived, closes⟩ := enclosed_of_clears later
      exact ⟨_, .index isName opens derived closes⟩
  · exact ⟨_, .word _ isName⟩
termination_by (rest.length, 0)

/-- An expression in front of a token that is needed. -/
theorem enclosed_of_clears
    {kind : Kind} {before after : List Token}
    (clears : Clears [.operand, .operators, .token kind] before after) :
    ∃ tree close,
      LevelDerives binaryLevels tree before (close :: after) ∧
        close.kind = kind := by
  obtain ⟨middle, inner, ending⟩ := clears.pair
  obtain ⟨close, rest, rfl, closes, nothing⟩ := ending.behind_token
  obtain rfl := nothing.eq_of_nil
  obtain ⟨tree, derived, _⟩ := expr_of_clears inner
  exact ⟨tree, close, derived, closes⟩
termination_by (before.length, 2)

theorem expr_of_clears
    {before after : List Token}
    (clears : Clears [.operand, .operators] before after) :
    ∃ tree, ValueDerives tree before after := by
  obtain ⟨middle, operand, operators⟩ := clears.first
  have shorter := operand.length_lt rfl
  obtain ⟨tree, derived⟩ := operand_of_clears operand
  exact operators_of_clears (level_of_operand binaryLevels derived) operators
termination_by (before.length, 1)

theorem operators_of_clears
    {lhs : Surface.Expr} {before middle after : List Token}
    (left : LevelDerives binaryLevels lhs before middle)
    (clears : Clears [.operators] middle after) :
    ∃ tree, ValueDerives tree before after := by
  rcases clears.cases_single with
    ⟨sign, rest, added, split, taken, later⟩ | ⟨_, foreign, rfl⟩
  · have shorter : rest.length < middle.length := by simp [split]
    subst split
    obtain ⟨member, rfl⟩ := operators_cases taken
    obtain ⟨behind, operand, operators⟩ := later.first
    have shrinks := operand.length_lt rfl
    obtain ⟨rhs, right⟩ := operand_of_clears operand
    obtain ⟨whole, derived⟩ := attach left member right
    exact operators_of_clears derived operators
  · refine ⟨lhs, left, fun member => ?_⟩
    rw [take_operators member] at foreign
    cases foreign
termination_by (middle.length, 0)

theorem arguments_of_clears
    {before after : List Token}
    (clears : Clears [.operand, .operators, .moreArguments] before after) :
    ∃ trees close,
      ArgumentsDerive trees before (close :: after) ∧
        close.kind = .rparen := by
  obtain ⟨middle, inner, later⟩ := clears.pair
  obtain ⟨tree, derived, _⟩ := expr_of_clears inner
  obtain ⟨token, rest, added, split, taken, later⟩ := later.cases_needed rfl
  have shorter : rest.length < before.length := by
    have shrinks := inner.length_le
    rw [split, List.length_cons] at shrinks
    omega
  subst split
  rcases moreArguments_cases taken with ⟨separates, rfl⟩ | ⟨closes, rfl⟩
  · obtain ⟨others, close, othersDerived, closes⟩ := arguments_of_clears later
    exact ⟨_, close, .more derived separates othersDerived, closes⟩
  · obtain rfl := later.eq_of_nil
    exact ⟨_, token, .last derived, closes⟩
termination_by (before.length, 2)

end

/-! ## Statements -/

theorem semicolon_of_clears
    {before after : List Token} (clears : Clears [.semicolon] before after) :
    SemicolonDerives before after := by
  rcases clears.cases_single with
    ⟨token, rest, added, rfl, taken, later⟩ | ⟨_, foreign, rfl⟩
  · simp only [Goal.take] at taken
    split at taken
    · next isSemicolon =>
        cases taken
        obtain rfl := later.eq_of_nil
        exact .taken rest isSemicolon
    · cases taken
  · refine .absent fun isSemicolon => ?_
    rw [isSemicolon] at foreign
    cases foreign

/-- A condition in parentheses, and what stands behind it. -/
theorem condition_of_clears
    {stack : List Goal} {before after : List Token}
    (clears :
      Clears
        (.token .lparen :: .operand :: .operators :: .token .rparen :: stack)
        before after) :
    ∃ tree opening close rest behind,
      before = opening :: rest ∧ opening.kind = .lparen ∧
        LevelDerives binaryLevels tree rest (close :: behind) ∧
        close.kind = .rparen ∧ behind.length < before.length ∧
        Clears stack behind after := by
  obtain ⟨opening, rest, rfl, opens, opened⟩ := clears.behind_token
  obtain ⟨middle, inner, ending⟩ := opened.pair
  obtain ⟨close, behind, rfl, closes, later⟩ := ending.behind_token
  obtain ⟨tree, derived, _⟩ := expr_of_clears inner
  have shrinks := inner.length_le
  simp only [List.length_cons] at shrinks
  refine ⟨tree, opening, close, rest, behind, rfl, opens, derived, closes, ?_, later⟩
  rw [List.length_cons]
  omega

theorem assignment_of_clears
    {name : Token} {before after : List Token}
    (isName : name.kind = .identifier)
    (clears : Clears [.assignment, .semicolon] before after) :
    ∃ tree, StmtDerives tree (name :: before) after := by
  obtain ⟨middle, assignment, ended⟩ := clears.first
  have semicolon := semicolon_of_clears ended
  obtain ⟨token, rest, added, rfl, taken, later⟩ := assignment.cases_needed rfl
  simp only [Goal.take] at taken
  split at taken
  · next isSign =>
      cases taken
      obtain ⟨tree, value⟩ := expr_of_clears later
      exact ⟨_, .assign isName isSign value semicolon⟩
  · next opens =>
      cases taken
      obtain ⟨behind, inner, ending⟩ := later.pair
      obtain ⟨close, _, rfl, closes, closed⟩ := ending.behind_token
      obtain ⟨sign, _, rfl, isSign, assigned⟩ := closed.behind_token
      obtain ⟨index, derived, _⟩ := expr_of_clears inner
      obtain ⟨tree, value⟩ := expr_of_clears assigned
      exact ⟨_, .store isName opens derived closes isSign value semicolon⟩
  · cases taken

theorem return_of_clears
    {word : Token} {before after : List Token}
    (isReturn : word.kind = .kwReturn)
    (clears : Clears [.result, .semicolon] before after) :
    ∃ tree, StmtDerives tree (word :: before) after := by
  obtain ⟨middle, result, ended⟩ := clears.first
  have semicolon := semicolon_of_clears ended
  rcases result.cases_single with
    ⟨token, rest, added, rfl, taken, later⟩ | ⟨_, foreign, rfl⟩
  · simp only [Goal.take] at taken
    split at taken
    · next starts =>
        obtain ⟨first, operandTaken, rfl⟩ := Option.map_eq_some_iff.mp taken
        obtain ⟨tree, value⟩ := expr_of_clears (.take operandTaken later)
        exact ⟨_, .retValue isReturn starts value semicolon⟩
    · cases taken
  · refine ⟨_, .ret isReturn (fun starts => ?_) semicolon⟩
    have some := isSome_takeOperand_of_result _ starts
    simp only [Goal.take, if_pos starts, Option.map_eq_none_iff] at foreign
    rw [foreign] at some
    cases some

theorem takeStmt_cases
    {kind : Kind} {added : List Goal}
    (taken : Goal.stmt.take kind = some added) :
    kind = .identifier ∧ added = [.assignment, .semicolon] ∨
      kind = .kwIf ∧
        added =
          [.token .lparen, .operand, .operators, .token .rparen, .stmt,
            .elseBranch] ∨
      kind = .kwWhile ∧
        added =
          [.token .lparen, .operand, .operators, .token .rparen, .stmt] ∨
      kind = .kwReturn ∧ added = [.result, .semicolon] ∨
      kind = .kwBreak ∧ added = [.semicolon] ∨
      kind = .kwContinue ∧ added = [.semicolon] ∨
      kind = .raw ∧ added = [] ∨
      kind = .semicolon ∧ added = [] ∨
      kind = .lbrace ∧ added = [.stmts, .token .rbrace] := by
  simp only [Goal.take, Goal.takeStmt] at taken
  split at taken <;> cases taken <;> simp

theorem elseBranch_cases
    {before after : List Token} (clears : Clears [.elseBranch] before after) :
    (∃ word rest,
      before = word :: rest ∧ word.kind = .kwElse ∧ Clears [.stmt] rest after) ∨
      nextKind before ≠ .kwElse ∧ before = after := by
  rcases clears.cases_single with
    ⟨word, rest, added, rfl, taken, later⟩ | ⟨_, foreign, rfl⟩
  · simp only [Goal.take] at taken
    split at taken
    · next isElse =>
        cases taken
        exact Or.inl ⟨word, rest, rfl, isElse, later⟩
    · cases taken
  · refine Or.inr ⟨fun isElse => ?_, rfl⟩
    rw [isElse] at foreign
    cases foreign

mutual

theorem stmt_of_clears
    {before after : List Token} (clears : Clears [.stmt] before after) :
    ∃ tree, StmtDerives tree before after := by
  obtain ⟨word, rest, added, split, taken, later⟩ := clears.cases_needed rfl
  have shorter : rest.length < before.length := by simp [split]
  subst split
  rcases takeStmt_cases taken with
    ⟨isName, rfl⟩ | ⟨isIf, rfl⟩ | ⟨isWhile, rfl⟩ | ⟨isReturn, rfl⟩ |
      ⟨isBreak, rfl⟩ | ⟨isContinue, rfl⟩ | ⟨isRaw, rfl⟩ | ⟨isSemicolon, rfl⟩ |
      ⟨opens, rfl⟩
  · exact assignment_of_clears isName later
  · obtain ⟨condition, opening, close, inner, behind, rfl, opens, derived, closes,
      less, later⟩ := condition_of_clears later
    obtain ⟨middle, first, later⟩ := later.first
    have shrinks := first.length_lt rfl
    obtain ⟨thenBranch, thenDerived⟩ := stmt_of_clears first
    rcases elseBranch_cases later with
      ⟨between, further, split, isElse, second⟩ | ⟨noElse, rfl⟩
    · have fewer : further.length < middle.length := by simp [split]
      subst split
      obtain ⟨elseBranch, elseDerived⟩ := stmt_of_clears second
      exact
        ⟨_, .ifElse isIf opens derived closes thenDerived isElse elseDerived⟩
    · exact ⟨_, .ifThen isIf opens derived closes thenDerived noElse⟩
  · obtain ⟨condition, opening, close, inner, behind, rfl, opens, derived, closes,
      less, later⟩ := condition_of_clears later
    obtain ⟨body, bodyDerived⟩ := stmt_of_clears later
    exact ⟨_, .loop isWhile opens derived closes bodyDerived⟩
  · exact return_of_clears isReturn later
  · exact ⟨_, .leave isBreak (semicolon_of_clears later)⟩
  · exact ⟨_, .again isContinue (semicolon_of_clears later)⟩
  · obtain rfl := later.eq_of_nil
    exact ⟨_, .raw rest isRaw⟩
  · obtain rfl := later.eq_of_nil
    exact ⟨_, .empty rest isSemicolon⟩
  · obtain ⟨middle, body, ending⟩ := later.first
    obtain ⟨close, behind, rfl, closes, nothing⟩ := ending.behind_token
    obtain rfl := nothing.eq_of_nil
    obtain ⟨trees, derived⟩ := stmts_of_clears body
    exact ⟨_, .block opens derived closes⟩
termination_by (before.length, 0)

theorem stmts_of_clears
    {before after : List Token} (clears : Clears [.stmts] before after) :
    ∃ trees, StmtsDerive trees before after := by
  rcases clears.cases_single with
    ⟨token, rest, added, split, taken, later⟩ | ⟨_, _, rfl⟩
  · obtain ⟨first, stmtTaken, rfl⟩ := Option.map_eq_some_iff.mp taken
    have whole : Clears [.stmt, .stmts] before after := by
      rw [split]
      exact .take stmtTaken later
    obtain ⟨middle, head, others⟩ := whole.first
    have shrinks := head.length_lt rfl
    obtain ⟨tree, derived⟩ := stmt_of_clears head
    obtain ⟨trees, othersDerived⟩ := stmts_of_clears others
    exact ⟨tree :: trees, .cons derived othersDerived⟩
  · exact ⟨[], .nil _⟩
termination_by (before.length, 1)

end

/-! ## Programs -/

theorem moreParams_cases
    {kind : Kind} {added : List Goal}
    (taken : Goal.moreParams.take kind = some added) :
    kind = .comma ∧ added = [.token .identifier, .moreParams] ∨
      kind = .rparen ∧ added = [] := by
  simp only [Goal.take] at taken
  split at taken <;> cases taken <;> simp

/-- Parameters behind the first one, with the closing parenthesis. -/
theorem params_of_clears
    {name : Token} {rest after : List Token} (isName : name.kind = .identifier)
    (clears : Clears [.moreParams] rest after) :
    ∃ names close,
      ParamsDerive names (name :: rest) (close :: after) ∧
        close.kind = .rparen := by
  obtain ⟨token, behind, added, split, taken, later⟩ := clears.cases_needed rfl
  have shorter : behind.length < rest.length := by simp [split]
  subst split
  rcases moreParams_cases taken with ⟨separates, rfl⟩ | ⟨closes, rfl⟩
  · obtain ⟨next, further, split, isNext, named⟩ := later.behind_token
    have fewer : further.length < behind.length := by simp [split]
    subst split
    obtain ⟨names, close, derived, closes⟩ := params_of_clears isNext named
    exact ⟨_, close, .more isName separates derived, closes⟩
  · obtain rfl := later.eq_of_nil
    exact ⟨_, token, .last _ isName, closes⟩
termination_by rest.length

theorem signature_of_clears
    {opening : Token} {rest after : List Token} (opens : opening.kind = .lparen)
    (clears : Clears [.params] rest after) :
    ∃ params, SignatureDerives params (opening :: rest) after := by
  obtain ⟨token, behind, added, rfl, taken, later⟩ := clears.cases_needed rfl
  simp only [Goal.take] at taken
  split at taken
  · next closes =>
      cases taken
      obtain rfl := later.eq_of_nil
      exact ⟨_, .none _ opens closes⟩
  · next isName =>
      cases taken
      obtain ⟨names, close, derived, closes⟩ := params_of_clears isName later
      exact ⟨_, .some opens derived closes⟩
  · cases taken

/-- One function behind the word `def`, and what stands behind it. -/
theorem function_of_clears
    {word : Token} {before after : List Token} (isDef : word.kind = .kwDef)
    (clears :
      Clears
        [.token .identifier, .token .lparen, .params, .token .lbrace, .stmts,
          .token .rbrace, .definitions]
        before after) :
    ∃ tree behind,
      FunctionDerives tree (word :: before) behind ∧
        behind.length < before.length ∧ Clears [.definitions] behind after := by
  obtain ⟨name, _, rfl, isName, named⟩ := clears.behind_token
  obtain ⟨opening, _, rfl, opens, opened⟩ := named.behind_token
  obtain ⟨_, params, listed⟩ := opened.first
  obtain ⟨brace, _, rfl, isBrace, braced⟩ := listed.behind_token
  obtain ⟨_, body, ending⟩ := braced.first
  obtain ⟨close, _, rfl, closes, later⟩ := ending.behind_token
  obtain ⟨names, signature⟩ := signature_of_clears opens params
  obtain ⟨trees, derived⟩ := stmts_of_clears body
  have paramsShrink := params.length_le
  have bodyShrinks := body.length_le
  simp only [List.length_cons] at paramsShrink bodyShrinks
  refine ⟨_, _, .mk isDef isName signature isBrace derived closes, ?_, later⟩
  simp only [List.length_cons]
  omega

theorem functions_of_clears
    {before after : List Token} (clears : Clears [.definitions] before after) :
    ∃ trees, FunctionsDerive trees before after := by
  rcases clears.cases_single with
    ⟨word, rest, added, split, taken, later⟩ | ⟨_, _, rfl⟩
  · have shorter : rest.length < before.length := by simp [split]
    subst split
    simp only [Goal.take] at taken
    split at taken
    · next isDef =>
        cases taken
        obtain ⟨tree, behind, derived, less, later⟩ :=
          function_of_clears isDef later
        obtain ⟨trees, othersDerived⟩ := functions_of_clears later
        exact ⟨tree :: trees, .cons derived othersDerived⟩
    · cases taken
  · exact ⟨[], .nil _⟩
termination_by before.length

/-- An accepted sequence has a derivation. -/
theorem derives_of_accepts
    {sequence : List Token} (accepted : accepts sequence = true) :
    ∃ tree : Surface.Program, tree.Derives sequence := by
  have cleared :
      run ([.definitions, .stmts] ++ [.token .eof]) sequence = .ok [] :=
    accepts_iff.mp accepted
  obtain ⟨tokens, last, rfl, isLast, clears⟩ := clears_of_run cleared
  obtain ⟨middle, definitions, main⟩ := clears.first
  obtain ⟨functions, functionsDerived⟩ := functions_of_clears definitions
  obtain ⟨stmts, mainDerived⟩ := stmts_of_clears main
  exact
    ⟨⟨functions, stmts⟩, tokens, last, middle, rfl, isLast, functionsDerived,
      mainDerived⟩

/-- The recognizer accepts exactly what derives from the grammar. -/
theorem accepts_iff_derives (sequence : List Token) :
    accepts sequence = true ↔ ∃ tree : Surface.Program, tree.Derives sequence :=
  ⟨derives_of_accepts, fun ⟨_, derived⟩ => accepts_of_derives derived⟩

end FlatCode.Recognizer
