import FlatCode.Proofs.Grammar.Accepted
import FlatCode.Proofs.Truth.Elision

/-!
# Leaving out tests for zero cannot be observed

A program that was read and the program that the eager builder makes of the same
derivation have the same values in all value positions, and their conditions are
zero in the same environments.

Statements are compared by the lists of their values and of their conditions, so
each form of a statement needs one rule, and functions and programs put these lists
one behind the other.  The functions above have the same signatures for both
builders, since labels are numbered in the same way.
-/

namespace FlatCode

/-! ## Agreement of statements -/

namespace Stmt

section Agreement

variable (environment : Environment)

/-- A statement and its eager counterpart have the same values, and conditions that
are zero in the same places. -/
def Agrees (stmt eager : Stmt) : Prop :=
  SameValues environment stmt.values eager.values ∧
    SameZeros environment stmt.conditions eager.conditions

def AgreeAll (stmts eagers : List Stmt) : Prop :=
  SameValues environment (valuesAll stmts) (valuesAll eagers) ∧
    SameZeros environment (conditionsAll stmts) (conditionsAll eagers)

variable {environment} {value index condition : Expr}
  {eagerValue eagerIndex eagerCondition : Expr}
  {stmt first second eager eagerFirst eagerSecond : Stmt}
  {stmts eagers : List Stmt}

/-- An expression in a value position, and every value inside it, has the value of
its eager counterpart. -/
theorem sameValues_normalize
    (agrees : Expr.Agrees environment value eagerValue) :
    SameValues environment (value.normalize :: value.normalize.passed)
      (eagerValue.normalize :: eagerValue.normalize.passed) := by
  rw [Expr.normalize_of_not_loose agrees.settled]
  exact .cons agrees.eval_normalize agrees.normalize.passed

theorem agrees_assign
    (target : String) (agrees : Expr.Agrees environment value eagerValue) :
    Agrees environment (.assign target value.normalize)
      (.assign target eagerValue.normalize) := by
  simp only [Agrees, values, conditions]
  exact ⟨sameValues_normalize agrees, .nil⟩

theorem agrees_store
    (cell : String) (place : Expr.Agrees environment index eagerIndex)
    (agrees : Expr.Agrees environment value eagerValue) :
    Agrees environment (.store cell index.normalize value.normalize)
      (.store cell eagerIndex.normalize eagerValue.normalize) := by
  simp only [Agrees, values, conditions]
  exact
    ⟨List.rel_append (sameValues_normalize place) (sameValues_normalize agrees),
      .nil⟩

theorem agrees_ifThen
    (test : Expr.Agrees environment condition eagerCondition)
    (thenBranch : Agrees environment first eagerFirst) :
    Agrees environment (.ifThen condition first)
      (.ifThen eagerCondition eagerFirst) := by
  simp only [Agrees, values, conditions]
  exact
    ⟨List.rel_append test.passed thenBranch.1,
      .cons test.zero_iff thenBranch.2⟩

theorem agrees_ifElse
    (test : Expr.Agrees environment condition eagerCondition)
    (thenBranch : Agrees environment first eagerFirst)
    (elseBranch : Agrees environment second eagerSecond) :
    Agrees environment (.ifElse condition first second)
      (.ifElse eagerCondition eagerFirst eagerSecond) := by
  simp only [Agrees, values, conditions]
  exact
    ⟨List.rel_append test.passed
        (List.rel_append thenBranch.1 elseBranch.1),
      .cons test.zero_iff (List.rel_append thenBranch.2 elseBranch.2)⟩

theorem agrees_loop
    (home exit : Label)
    (test : Expr.Agrees environment condition eagerCondition)
    (body : Agrees environment stmt eager) :
    Agrees environment (.loop home exit condition stmt)
      (.loop home exit eagerCondition eager) := by
  simp only [Agrees, values, conditions]
  exact
    ⟨List.rel_append test.passed body.1, .cons test.zero_iff body.2⟩

theorem agrees_ret
    (function : String)
    (agrees : Expr.Agrees environment value eagerValue) :
    Agrees environment (.ret function (some value.normalize))
      (.ret function (some eagerValue.normalize)) := by
  simp only [Agrees, values, conditions]
  exact ⟨sameValues_normalize agrees, .nil⟩

/-- A statement without expressions agrees with itself. -/
theorem agrees_self
    (noValues : stmt.values = []) (noConditions : stmt.conditions = []) :
    Agrees environment stmt stmt := by
  rw [Agrees, noValues, noConditions]
  exact ⟨.nil, .nil⟩

theorem agrees_block (agree : AgreeAll environment stmts eagers) :
    Agrees environment (.block stmts) (.block eagers) := by
  simp only [Agrees, values, conditions]
  exact agree

theorem agreeAll_nil : AgreeAll environment [] [] := by
  simp only [AgreeAll, valuesAll, conditionsAll]
  exact ⟨.nil, .nil⟩

theorem agreeAll_cons
    (agrees : Agrees environment stmt eager)
    (agree : AgreeAll environment stmts eagers) :
    AgreeAll environment (stmt :: stmts) (eager :: eagers) := by
  simp only [AgreeAll, valuesAll, conditionsAll]
  exact
    ⟨List.rel_append agrees.1 agree.1, List.rel_append agrees.2 agree.2⟩

end Agreement

/-! ## Closed bodies -/

theorem valuesAll_append (first second : List Stmt) :
    valuesAll (first ++ second) = valuesAll first ++ valuesAll second := by
  induction first with
  | nil =>
      simp
  | cons head tail inductionHypothesis =>
      simp [inductionHypothesis]

theorem conditionsAll_append (first second : List Stmt) :
    conditionsAll (first ++ second) =
      conditionsAll first ++ conditionsAll second := by
  induction first with
  | nil =>
      simp
  | cons head tail inductionHypothesis =>
      simp [inductionHypothesis]

/-- The return at the end of a body holds no expression. -/
theorem agreeAll_closeBody
    {environment : Environment} {name : String} {stmts eagers : List Stmt}
    (agree : AgreeAll environment stmts eagers) :
    AgreeAll environment (Function.closeBody name stmts)
      (Function.closeBody name eagers) := by
  have values : ∀ body,
      valuesAll (Function.closeBody name body) = valuesAll body := by
    intro body
    rw [Function.closeBody]
    split
    · rfl
    · simp [valuesAll_append]
  have conditions : ∀ body,
      conditionsAll (Function.closeBody name body) = conditionsAll body := by
    intro body
    rw [Function.closeBody]
    split
    · rfl
    · simp [conditionsAll_append]
  rw [AgreeAll, values, values, conditions, conditions]
  exact agree

end Stmt

/-! ## Derivations -/

namespace Surface

open FlatCode.Stmt (AgreeAll Numbered)

/-- What was built and its eager counterpart agree, and the same labels are in use
behind them. -/
def SameLabels
    {α : Type} (agree : α → α → Prop) (result eager : Numbered α) : Prop :=
  ∃ tree, eager = (tree, result.2) ∧ agree result.1 tree

mutual

/-- A statement that is built has an eager counterpart with the same labels. -/
theorem mirrored_stmt :
    (tree : Stmt) → ∀ around created,
      Mirrored
        (SameLabels fun stmt eager => ∀ environment,
          FlatCode.Stmt.Agrees environment stmt eager)
        (tree.build .reading around created) (tree.build .eager around created)
  | .assign target value, around, created => by
      rw [Stmt.build, Stmt.build]
      refine (mirrored_build value).bind fun built eager agrees => ?_
      exact .given ⟨_, rfl, fun environment =>
        FlatCode.Stmt.agrees_assign target (agrees environment)⟩
  | .store cell index value, around, created => by
      rw [Stmt.build, Stmt.build]
      refine (mirrored_build index).bind fun place eagerPlace placeAgrees => ?_
      refine (mirrored_build value).bind fun built eager agrees => ?_
      exact .given ⟨_, rfl, fun environment =>
        FlatCode.Stmt.agrees_store cell (placeAgrees environment)
          (agrees environment)⟩
  | .ifThen condition thenBranch, around, created => by
      rw [Stmt.build, Stmt.build]
      refine (mirrored_build condition).bind fun test eagerTest agrees => ?_
      refine (mirrored_stmt thenBranch around created).bind ?_
      rintro first _ ⟨eagerFirst, rfl, firstAgrees⟩
      exact .given ⟨_, rfl, fun environment =>
        FlatCode.Stmt.agrees_ifThen (agrees environment)
          (firstAgrees environment)⟩
  | .ifElse condition thenBranch elseBranch, around, created => by
      rw [Stmt.build, Stmt.build]
      refine (mirrored_build condition).bind fun test eagerTest agrees => ?_
      refine (mirrored_stmt thenBranch around created).bind ?_
      rintro first _ ⟨eagerFirst, rfl, firstAgrees⟩
      refine (mirrored_stmt elseBranch around first.2).bind ?_
      rintro second _ ⟨eagerSecond, rfl, secondAgrees⟩
      exact .given ⟨_, rfl, fun environment =>
        FlatCode.Stmt.agrees_ifElse (agrees environment)
          (firstAgrees environment) (secondAgrees environment)⟩
  | .loop condition body, around, created => by
      rw [Stmt.build, Stmt.build]
      refine (mirrored_build condition).bind fun test eagerTest agrees => ?_
      refine (mirrored_stmt body _ (created + 2)).bind ?_
      rintro repeated _ ⟨eagerBody, rfl, bodyAgrees⟩
      exact .given ⟨_, rfl, fun environment =>
        FlatCode.Stmt.agrees_loop _ _ (agrees environment)
          (bodyAgrees environment)⟩
  | .ret none, around, created => by
      rw [Stmt.build, Stmt.build]
      refine .bind_same fun function _ => ?_
      exact .given ⟨_, rfl, fun _ => FlatCode.Stmt.agrees_self rfl rfl⟩
  | .ret (some value), around, created => by
      rw [Stmt.build, Stmt.build]
      refine .bind_same fun function _ => ?_
      refine (mirrored_build value).bind fun built eager agrees => ?_
      exact .given ⟨_, rfl, fun environment =>
        FlatCode.Stmt.agrees_ret function (agrees environment)⟩
  | .leave, around, created
  | .again, around, created => by
      rw [Stmt.build, Stmt.build]
      refine .bind_same fun labels _ => ?_
      exact .given ⟨_, rfl, fun _ => FlatCode.Stmt.agrees_self rfl rfl⟩
  | .raw _, around, created
  | .empty, around, created => by
      rw [Stmt.build, Stmt.build]
      exact .given ⟨_, rfl, fun _ => FlatCode.Stmt.agrees_self rfl rfl⟩
  | .block body, around, created => by
      rw [Stmt.build, Stmt.build]
      refine (mirrored_stmts body around created).bind ?_
      rintro built _ ⟨eagers, rfl, agree⟩
      exact .given ⟨_, rfl, fun environment =>
        FlatCode.Stmt.agrees_block (agree environment)⟩

/-- Statements that are built have eager counterparts with the same labels. -/
theorem mirrored_stmts :
    (trees : List Stmt) → ∀ around created,
      Mirrored
        (SameLabels fun stmts eagers => ∀ environment,
          AgreeAll environment stmts eagers)
        (Stmt.buildAll .reading around created trees)
        (Stmt.buildAll .eager around created trees)
  | [], around, created => by
      rw [Stmt.buildAll, Stmt.buildAll]
      exact .given ⟨_, rfl, fun _ => FlatCode.Stmt.agreeAll_nil⟩
  | first :: others, around, created => by
      rw [Stmt.buildAll, Stmt.buildAll]
      refine (mirrored_stmt first around created).bind ?_
      rintro built _ ⟨eager, rfl, agrees⟩
      refine (mirrored_stmts others around built.2).bind ?_
      rintro rest _ ⟨eagers, rfl, agree⟩
      exact .given ⟨_, rfl, fun environment =>
        FlatCode.Stmt.agreeAll_cons (agrees environment) (agree environment)⟩

end

/-- A function that is built has an eager counterpart with the same signature. -/
theorem mirrored_function
    {tree : Function} {functions eagers : List FlatCode.Function}
    {created : Nat}
    (same :
      functions.map FlatCode.Function.callee =
        eagers.map FlatCode.Function.callee) :
    Mirrored
      (SameLabels fun function eager =>
        eager.callee = function.callee ∧
          ∀ environment, AgreeAll environment function.body eager.body)
      (tree.build .reading functions created)
      (tree.build .eager eagers created) := by
  have names :
      functions.map FlatCode.Function.name =
        eagers.map FlatCode.Function.name := by
    have names := congrArg (List.map Callee.name) same
    rw [List.map_map, List.map_map] at names
    exact names
  by_cases fresh : tree.Fresh functions
  · have eagerFresh : tree.Fresh eagers := by
      rw [Function.Fresh, ← names]
      exact fresh
    rw [Function.build, Function.build, if_pos fresh, if_pos eagerFresh,
      ← same]
    refine (mirrored_stmts tree.body _ created).bind ?_
    rintro body _ ⟨eagerBody, rfl, agree⟩
    exact .given ⟨_, rfl, rfl, fun environment =>
      FlatCode.Stmt.agreeAll_closeBody (agree environment)⟩
  · rw [Function.build, if_neg fresh]
    rintro _ ⟨⟩

/-- Functions have the same signatures as their eager counterparts, and bodies that
agree. -/
def FunctionsAgree (functions eagers : List FlatCode.Function) : Prop :=
  functions.map FlatCode.Function.callee =
      eagers.map FlatCode.Function.callee ∧
    ∀ environment,
      List.Forall₂ (AgreeAll environment)
        (functions.map FlatCode.Function.body)
        (eagers.map FlatCode.Function.body)

theorem FunctionsAgree.snoc
    {functions eagers : List FlatCode.Function}
    {function eager : FlatCode.Function}
    (agree : FunctionsAgree functions eagers)
    (signature : eager.callee = function.callee)
    (body : ∀ environment, AgreeAll environment function.body eager.body) :
    FunctionsAgree (functions ++ [function]) (eagers ++ [eager]) := by
  constructor
  · simp only [List.map_append, List.map_cons, List.map_nil, agree.1,
      signature]
  · intro environment
    rw [List.map_append, List.map_append]
    exact
      List.rel_append (agree.2 environment) (.cons (body environment) .nil)

/-- Functions that are built have eager counterparts with the same signatures. -/
theorem mirrored_functions
    {trees : List Function} {functions eagers : List FlatCode.Function}
    {created : Nat} (agree : FunctionsAgree functions eagers) :
    Mirrored (SameLabels FunctionsAgree)
      (Function.buildAll .reading functions created trees)
      (Function.buildAll .eager eagers created trees) := by
  induction trees generalizing functions eagers created with
  | nil =>
      rw [Function.buildAll, Function.buildAll]
      exact .given ⟨_, rfl, agree⟩
  | cons first others inductionHypothesis =>
      rw [Function.buildAll, Function.buildAll]
      refine (mirrored_function agree.1).bind ?_
      rintro built _ ⟨eager, rfl, signature, body⟩
      exact inductionHypothesis (agree.snoc signature body)

/-- A program that is built has an eager counterpart with the same values, and with
conditions that are zero in the same places. -/
theorem exists_eager_program
    {tree : Program} {program : FlatCode.Program}
    (builds : tree.build .reading = some program) :
    ∃ eager,
      tree.build .eager = some eager ∧
        ∀ environment,
          SameValues environment program.values eager.values ∧
            SameZeros environment program.conditions eager.conditions := by
  have mirrored :
      Mirrored
        (fun program eager => ∀ environment,
          SameValues environment program.values eager.values ∧
            SameZeros environment program.conditions eager.conditions)
        (tree.build .reading) (tree.build .eager) := by
    rw [Program.build, Program.build]
    refine (mirrored_functions ⟨rfl, fun _ => .nil⟩).bind ?_
    rintro functions _ ⟨eagers, rfl, same, agree⟩
    rw [same]
    refine (mirrored_stmts tree.main _ functions.2).bind ?_
    rintro main _ ⟨eagerMain, rfl, mainAgree⟩
    refine .given fun environment => ?_
    have bodies :
        List.Forall₂ (AgreeAll environment)
          (functions.1.map FlatCode.Function.body ++ [main.1])
          (eagers.map FlatCode.Function.body ++ [eagerMain]) :=
      List.rel_append (agree environment)
        (.cons (mainAgree environment) .nil)
    exact
      ⟨List.rel_flatMap bodies fun _ _ agrees => agrees.1,
        List.rel_flatMap bodies fun _ _ agrees => agrees.2⟩
  exact mirrored program builds

end Surface

/-! ## Programs that were read -/

/-- A text that is read has a derivation that is built into its program, and the
program that the eager builder makes of such a derivation has the same values in
all value positions and conditions that are zero in the same environments. -/
theorem elision_unobservable
    {source : String} {program : Program}
    (read : Program.parse source = .ok program) :
    ∃ sequence,
      Token.tokenize source = .ok sequence ∧
        (∃ tree : Surface.Program,
          tree.Derives sequence ∧ tree.build .reading = some program) ∧
        ∀ tree : Surface.Program,
          tree.Derives sequence → tree.build .reading = some program →
            ∃ eager,
              tree.build .eager = some eager ∧
                ∀ environment : Environment,
                  List.Forall₂
                      (fun value eagerValue =>
                        value.eval environment = eagerValue.eval environment)
                      program.values eager.values ∧
                    List.Forall₂
                      (fun condition eagerCondition =>
                        condition.eval environment = 0 ↔
                          eagerCondition.eval environment = 0)
                      program.conditions eager.conditions := by
  obtain ⟨sequence, tokenized, tree, derived, builds⟩ :=
    Program.exists_derivation_of_parse read
  refine ⟨sequence, tokenized, ⟨tree, derived, builds⟩, ?_⟩
  intro other _ otherBuilds
  exact Surface.exists_eager_program otherBuilds

/-- Division rounds down, all names but `a` stand for five, and functions add up
their arguments. -/
def Environment.usual : Environment where
  word text := if text = "0" ∨ text = "a" then 0 else 5
  cell _ index := index + 10
  function _ args := args.sum
  other
    | .div, lhs, rhs | .intDiv, lhs, rhs => lhs / rhs
    | .mod, lhs, rhs => if rhs = 0 then 0 else lhs % rhs
    | .pow, lhs, rhs => lhs ^ rhs.toNat
    | .abs, lhs, _ => lhs.natAbs
    | .sqrt, lhs, _ => lhs.toNat.sqrt
    | .floor, lhs, _ | .ceil, lhs, _ => lhs
    | _, _, _ => 0
  word_zero := rfl
  divide_zero := by simp
  divide_one := by simp
  mod_one := by simp
  pow_nat := by simp
  keeps_truth := by
    rintro operator listed value (rfl | rfl) <;>
      simp only [List.mem_cons, List.not_mem_nil, or_false] at listed <;>
      rcases listed with rfl | rfl | rfl | rfl <;> simp

/-- A disjunction as a condition, under a negation, as an operand, as an index and as
an argument, and a builtin that is left out. -/
theorem elision_unobservable_of_disjunction :
    ∃ program,
      Program.parse
          "def f(x) \x7b return a || x; \x7d if (a || b) y = !(a || b) + abs(a < b); z = c[a || b] * f(b || a);" =
        .ok program ∧
        program.values.map (Expr.eval .usual) = [1, 1, 11, 1, 1] ∧
        ∃ sequence,
          Token.tokenize
              "def f(x) \x7b return a || x; \x7d if (a || b) y = !(a || b) + abs(a < b); z = c[a || b] * f(b || a);" =
            .ok sequence ∧
          ∃ (tree : Surface.Program) (eager : Program),
            tree.Derives sequence ∧ tree.build .reading = some program ∧
              tree.build .eager = some eager ∧
              List.Forall₂
                (fun value eagerValue =>
                  value.eval .usual = eagerValue.eval .usual)
                program.values eager.values := by
  obtain ⟨program, read, accepted⟩ :=
    Program.exists_of_accepted
      (show ((Program.parse
          "def f(x) \x7b return a || x; \x7d if (a || b) y = !(a || b) + abs(a < b); z = c[a || b] * f(b || a);"
        ).toOption.any fun program =>
          decide (program.values.map (Expr.eval .usual) = [1, 1, 11, 1, 1])) =
          true by
        decide +kernel)
  obtain ⟨sequence, tokenized, ⟨tree, derived, builds⟩, agree⟩ :=
    elision_unobservable read
  obtain ⟨eager, eagerBuilds, same⟩ := agree tree derived builds
  exact
    ⟨program, read, of_decide_eq_true accepted, sequence, tokenized, tree,
      eager, derived, builds, eagerBuilds, (same .usual).1⟩

end FlatCode
