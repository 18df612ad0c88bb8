import FlatCode.Proofs.Semantics.Execution
import FlatCode.Proofs.Tree.Call

/-!
# Variables that a call can change

All functions work on one set of variables, so a call can change more than the result
of its function: the parameters, the variables that the body assigns, and what the
functions called there write.  Nothing else changes a variable while an expression is
evaluated, so one that no function in reach of its calls writes keeps its value:
`Program.keeps_of_not_disturbs`.
-/

namespace FlatCode

namespace Stmt

mutual

/-- The variables that a statement assigns itself.  The variable `_` is never
written. -/
def assigned : Stmt → List String
  | .assign name _ => if name = "_" then [] else [name]
  | .ifThen _ thenBranch => thenBranch.assigned
  | .ifElse _ thenBranch elseBranch =>
      thenBranch.assigned ++ elseBranch.assigned
  | .loop _ _ _ body => body.assigned
  | .block body => assignedAll body
  | .store .. | .ret .. | .jump _ | .raw _ | .empty => []

def assignedAll : List Stmt → List String
  | [] => []
  | first :: others => first.assigned ++ assignedAll others

end

end Stmt

namespace Program

/-- The function itself or one that calls lead to from it has the variable as a
parameter or assigns it. -/
def Writes (program : Program) (called name : String) : Prop :=
  ∃ inner function,
    Relation.ReflTransGen program.Calls called inner ∧
      program.function? inner = some function ∧
      (name ∈ function.params ∨ name ∈ Stmt.assignedAll function.body)

/-- Some call in the expression goes to a function that writes the variable. -/
def Disturbs (program : Program) (expr : Expr) (name : String) : Prop :=
  ∃ truth callee args,
    Expr.call truth callee args ∈ expr.nodes ∧
      program.Writes callee.name name

end Program

variable {Value Memory : Type}

theorem Store.values_assignAll
    {name : String} {params : List String} (other : name ∉ params)
    (store : Store Value Memory) (values : List Value) :
    (store.assignAll params values).values name = store.values name := by
  induction params generalizing store values with
  | nil =>
      rfl
  | cons param others inductionHypothesis =>
      rw [List.mem_cons, not_or] at other
      cases values with
      | nil =>
          rfl
      | cons value values =>
          rw [assignAll, inductionHypothesis other.2]
          exact if_neg other.1

/-- A call leaves a variable alone: it is no parameter, and running the body keeps
its value. -/
structure Callee.Spares
    (invoke : Callee → Store Value Memory → Option (Store Value Memory))
    (name : String) (callee : Callee) : Prop where
  params : name ∉ callee.params
  body : ∀ store after, invoke callee store = some after →
    after.values name = store.values name

/-- Evaluation of an expression keeps the value of a variable. -/
def Expr.Keeps
    (target : Target Value Memory)
    (invoke : Callee → Store Value Memory → Option (Store Value Memory))
    (name : String) (expr : Expr) : Prop :=
  ∀ store result, target.eval invoke expr store = some result →
    result.2.values name = store.values name

section Keeps

variable {target : Target Value Memory}
  {invoke : Callee → Store Value Memory → Option (Store Value Memory)}
  {name : String}

theorem Expr.values_eq_of_evalAll
    {args : List Expr} (keeps : ∀ arg ∈ args, arg.Keeps target invoke name)
    {store : Store Value Memory} {result : List Value × Store Value Memory}
    (evaluated : target.evalAll invoke args store = some result) :
    result.2.values name = store.values name := by
  induction args generalizing store result with
  | nil =>
      rw [Target.evalAll] at evaluated
      cases evaluated
      rfl
  | cons argument others inductionHypothesis =>
      rw [List.forall_mem_cons] at keeps
      rw [Target.evalAll] at evaluated
      obtain ⟨first, began, evaluated⟩ := Option.bind_eq_some_iff.mp evaluated
      obtain ⟨rest, ended, evaluated⟩ := Option.bind_eq_some_iff.mp evaluated
      cases evaluated
      have head := keeps.1 store first began
      have tail := inductionHypothesis keeps.2 ended
      exact tail.trans head

/-- Only the calls of an expression change variables. -/
theorem Expr.keeps_of_spares
    {expr : Expr}
    (spares : ∀ truth callee args, .call truth callee args ∈ expr.nodes →
      callee.Spares invoke name) :
    expr.Keeps target invoke name := by
  induction expr with
  | atom truth text =>
      intro store result evaluated
      rw [Target.eval] at evaluated
      cases evaluated
      rfl
  | binary truth operator lhs rhs lhsKeeps rhsKeeps =>
      simp only [nodes, List.mem_cons, List.mem_append] at spares
      intro store result evaluated
      rw [Target.eval] at evaluated
      obtain ⟨left, leftDone, evaluated⟩ :=
        Option.bind_eq_some_iff.mp evaluated
      obtain ⟨right, rightDone, evaluated⟩ :=
        Option.bind_eq_some_iff.mp evaluated
      cases evaluated
      have first :=
        lhsKeeps (fun _ _ _ inside => spares _ _ _ (Or.inr (Or.inl inside)))
          store left leftDone
      have second :=
        rhsKeeps (fun _ _ _ inside => spares _ _ _ (Or.inr (Or.inr inside)))
          left.2 right rightDone
      exact second.trans first
  | call truth callee args argsKeep =>
      simp only [nodes, List.mem_cons, mem_nodesAll] at spares
      intro store result evaluated
      rw [Target.eval] at evaluated
      obtain ⟨passed, passedDone, evaluated⟩ :=
        Option.bind_eq_some_iff.mp evaluated
      obtain ⟨after, called, evaluated⟩ :=
        Option.bind_eq_some_iff.mp evaluated
      cases evaluated
      have spared := spares truth callee args (Or.inl rfl)
      have each : ∀ arg ∈ args, arg.Keeps target invoke name := by
        intro arg member
        exact
          argsKeep arg member fun _ _ _ inside =>
            spares _ _ _ (Or.inr ⟨arg, member, inside⟩)
      calc
        after.values name =
            (passed.2.assignAll callee.params passed.1).values name :=
          spared.body _ _ called
        _ = passed.2.values name :=
          Store.values_assignAll spared.params passed.2 passed.1
        _ = store.values name := values_eq_of_evalAll each passedDone
  | load truth cell index indexKeeps =>
      simp only [nodes, List.mem_cons] at spares
      intro store result evaluated
      rw [Target.eval] at evaluated
      obtain ⟨place, placeDone, evaluated⟩ :=
        Option.bind_eq_some_iff.mp evaluated
      cases evaluated
      exact
        indexKeeps (fun _ _ _ inside => spares _ _ _ (Or.inr inside)) store
          place placeDone

variable [DecidableEq Value] {fuel : Nat}

theorem Expr.Keeps.test
    {condition : Expr} (keeps : condition.Keeps target invoke name)
    {store : Store Value Memory} {result : Bool × Store Value Memory}
    (tested : target.test invoke condition store = some result) :
    result.2.values name = store.values name := by
  obtain ⟨value, evaluated, tested⟩ := Option.bind_eq_some_iff.mp tested
  cases tested
  exact keeps store value evaluated

omit [DecidableEq Value] in
/-- A loop keeps what its condition and its body keep. -/
theorem Target.values_eq_of_repeatLoop
    {condition : Store Value Memory → Option (Bool × Store Value Memory)}
    {body : Store Value Memory → Option (Outcome × Store Value Memory)}
    (conditionKeeps : ∀ store result, condition store = some result →
      result.2.values name = store.values name)
    (bodyKeeps : ∀ store result, body store = some result →
      result.2.values name = store.values name)
    {rounds : Nat} {store : Store Value Memory}
    {result : Outcome × Store Value Memory}
    (repeated : repeatLoop condition body rounds store = some result) :
    result.2.values name = store.values name := by
  induction rounds generalizing store with
  | zero =>
      cases repeated
  | succ rounds inductionHypothesis =>
      rw [repeatLoop] at repeated
      obtain ⟨tested, began, repeated⟩ := Option.bind_eq_some_iff.mp repeated
      have first := conditionKeeps store tested began
      split at repeated
      · obtain ⟨⟨outcome, between⟩, inside, repeated⟩ :=
          Option.bind_eq_some_iff.mp repeated
        have second := bodyKeeps tested.2 _ inside
        cases outcome with
        | normal | continued =>
            exact (inductionHypothesis repeated).trans (second.trans first)
        | broke | returned =>
            cases repeated
            exact second.trans first
      · cases repeated
        exact first

namespace Stmt

/-- Execution of a statement keeps the value of a variable, whatever loop is around
it. -/
def Keeps
    (target : Target Value Memory)
    (invoke : Callee → Store Value Memory → Option (Store Value Memory))
    (fuel : Nat) (name : String) (stmt : Stmt) : Prop :=
  ∀ around store result,
    target.exec invoke fuel around stmt store = some result →
      result.2.values name = store.values name

theorem values_eq_of_execAll
    {body : List Stmt} (keeps : ∀ stmt ∈ body, stmt.Keeps target invoke fuel name)
    {around : Option LoopLabels} {store : Store Value Memory}
    {result : Outcome × Store Value Memory}
    (executed : target.execAll invoke fuel around body store = some result) :
    result.2.values name = store.values name := by
  induction body generalizing store with
  | nil =>
      rw [Target.execAll] at executed
      cases executed
      rfl
  | cons first others inductionHypothesis =>
      rw [List.forall_mem_cons] at keeps
      rw [Target.execAll] at executed
      obtain ⟨⟨outcome, between⟩, began, executed⟩ :=
        Option.bind_eq_some_iff.mp executed
      have head := keeps.1 around store _ began
      cases outcome with
      | normal =>
          exact (inductionHypothesis keeps.2 executed).trans head
      | broke | continued | returned =>
          cases executed
          exact head

theorem keeps_assign
    {written : String} {value : Expr}
    (keeps : value.Keeps target invoke name)
    (unassigned : name ∉ (Stmt.assign written value).assigned) :
    (Stmt.assign written value).Keeps target invoke fuel name := by
  intro around store result executed
  rw [Target.exec] at executed
  obtain ⟨stored, evaluated, executed⟩ := Option.bind_eq_some_iff.mp executed
  have kept := keeps store stored evaluated
  by_cases discarded : written = "_"
  · rw [if_pos discarded] at executed
    cases executed
    exact kept
  · rw [if_neg discarded] at executed
    rw [assigned, if_neg discarded, List.mem_singleton] at unassigned
    cases executed
    rw [← kept]
    exact if_neg unassigned

theorem keeps_store
    {cell : String} {index value : Expr}
    (indexKeeps : index.Keeps target invoke name)
    (valueKeeps : value.Keeps target invoke name) :
    (Stmt.store cell index value).Keeps target invoke fuel name := by
  intro around store result executed
  rw [Target.exec] at executed
  obtain ⟨stored, valueDone, executed⟩ := Option.bind_eq_some_iff.mp executed
  obtain ⟨place, indexDone, executed⟩ := Option.bind_eq_some_iff.mp executed
  cases executed
  exact
    (indexKeeps stored.2 place indexDone).trans
      (valueKeeps store stored valueDone)

theorem keeps_ifThen
    {condition : Expr} {thenBranch : Stmt}
    (conditionKeeps : condition.Keeps target invoke name)
    (thenKeeps : thenBranch.Keeps target invoke fuel name) :
    (Stmt.ifThen condition thenBranch).Keeps target invoke fuel name := by
  intro around store result executed
  rw [Target.exec] at executed
  obtain ⟨tested, began, executed⟩ := Option.bind_eq_some_iff.mp executed
  have first := conditionKeeps.test began
  split at executed
  · exact (thenKeeps around tested.2 result executed).trans first
  · cases executed
    exact first

theorem keeps_ifElse
    {condition : Expr} {thenBranch elseBranch : Stmt}
    (conditionKeeps : condition.Keeps target invoke name)
    (thenKeeps : thenBranch.Keeps target invoke fuel name)
    (elseKeeps : elseBranch.Keeps target invoke fuel name) :
    (Stmt.ifElse condition thenBranch elseBranch).Keeps target invoke fuel
      name := by
  intro around store result executed
  rw [Target.exec] at executed
  obtain ⟨tested, began, executed⟩ := Option.bind_eq_some_iff.mp executed
  have first := conditionKeeps.test began
  split at executed
  · exact (thenKeeps around tested.2 result executed).trans first
  · exact (elseKeeps around tested.2 result executed).trans first

theorem keeps_loop
    {home exit : Label} {condition : Expr} {body : Stmt}
    (conditionKeeps : condition.Keeps target invoke name)
    (bodyKeeps : body.Keeps target invoke fuel name) :
    (Stmt.loop home exit condition body).Keeps target invoke fuel name := by
  intro around store result executed
  rw [Target.exec] at executed
  exact
    Target.values_eq_of_repeatLoop
      (fun _ _ tested => conditionKeeps.test tested)
      (fun store result inside => bodyKeeps _ store result inside) executed

theorem keeps_ret
    {function : String} {value : Option Expr}
    (keeps : ∀ expr ∈ value, expr.Keeps target invoke name) :
    (Stmt.ret function value).Keeps target invoke fuel name := by
  intro around store result executed
  cases value with
  | none =>
      rw [Target.exec] at executed
      cases executed
      rfl
  | some value =>
      rw [Target.exec] at executed
      obtain ⟨stored, evaluated, executed⟩ :=
        Option.bind_eq_some_iff.mp executed
      cases executed
      exact keeps value rfl store stored evaluated

theorem keeps_jump (label : Label) :
    (Stmt.jump label).Keeps target invoke fuel name := by
  intro around store result executed
  cases around with
  | none =>
      simp only [Target.exec] at executed
      cases executed
  | some labels =>
      simp only [Target.exec] at executed
      split at executed
      · cases executed
        rfl
      · split at executed
        · cases executed
          rfl
        · cases executed

theorem mem_exprsAll {body : List Stmt} {expr : Expr} :
    expr ∈ exprsAll body ↔ ∃ stmt ∈ body, expr ∈ stmt.exprs := by
  induction body with
  | nil =>
      simp [exprsAll]
  | cons first others inductionHypothesis =>
      simp [exprsAll, inductionHypothesis]

theorem mem_assignedAll {body : List Stmt} :
    name ∈ assignedAll body ↔ ∃ stmt ∈ body, name ∈ stmt.assigned := by
  induction body with
  | nil =>
      simp [assignedAll]
  | cons first others inductionHypothesis =>
      simp [assignedAll, inductionHypothesis]

/-- Besides the calls in its expressions, a statement changes the variables it
assigns. -/
theorem keeps_of_exprs
    {stmt : Stmt} (keeps : ∀ expr ∈ stmt.exprs, expr.Keeps target invoke name)
    (unassigned : name ∉ stmt.assigned) :
    stmt.Keeps target invoke fuel name := by
  induction stmt with
  | assign written value =>
      exact keeps_assign (keeps value (by simp [exprs])) unassigned
  | store cell index value =>
      exact
        keeps_store (keeps index (by simp [exprs]))
          (keeps value (by simp [exprs]))
  | ifThen condition thenBranch thenKeeps =>
      rw [exprs, List.forall_mem_cons] at keeps
      exact keeps_ifThen keeps.1 (thenKeeps keeps.2 unassigned)
  | ifElse condition thenBranch elseBranch thenKeeps elseKeeps =>
      rw [exprs, List.forall_mem_cons, List.forall_mem_append] at keeps
      rw [assigned, List.mem_append, not_or] at unassigned
      exact
        keeps_ifElse keeps.1 (thenKeeps keeps.2.1 unassigned.1)
          (elseKeeps keeps.2.2 unassigned.2)
  | loop home exit condition body bodyKeeps =>
      rw [exprs, List.forall_mem_cons] at keeps
      exact keeps_loop keeps.1 (bodyKeeps keeps.2 unassigned)
  | ret function value =>
      refine keeps_ret fun expr result => keeps expr ?_
      cases result
      simp [exprs]
  | jump label =>
      exact keeps_jump label
  | raw text =>
      intro around store result executed
      rw [Target.exec] at executed
      cases executed
  | block body bodyKeeps =>
      intro around store result executed
      rw [Target.exec] at executed
      refine values_eq_of_execAll ?_ executed
      intro stmt member
      refine bodyKeeps stmt member ?_ ?_
      · intro expr inside
        exact keeps expr (mem_exprsAll.mpr ⟨stmt, member, inside⟩)
      · intro inside
        exact unassigned (mem_assignedAll.mpr ⟨stmt, member, inside⟩)
  | empty =>
      intro around store result executed
      rw [Target.exec] at executed
      cases executed
      rfl

end Stmt

end Keeps

/-! ## Calls of a program that was read -/

namespace Program

variable [DecidableEq Value] {target : Target Value Memory} {program : Program}
  {name : String}

theorem not_mem_params_of_not_writes
    (formed : program.WellFormed) {callee : Callee}
    (known : callee ∈ program.functions.map Function.callee)
    (spared : ¬ program.Writes callee.name name) :
    name ∉ callee.params := by
  obtain ⟨function, member, rfl⟩ := List.mem_map.mp known
  intro inside
  exact
    spared
      ⟨function.name, function, .refl, function?_of_mem formed member,
        Or.inl inside⟩

/-- A call of a function that writes a variable nowhere in reach leaves it
alone. -/
theorem spares_of_not_writes
    (formed : program.WellFormed) (fuel : Nat) {callee : Callee}
    (known : callee ∈ program.functions.map Function.callee)
    (spared : ¬ program.Writes callee.name name) :
    callee.Spares (program.call target fuel) name := by
  refine ⟨not_mem_params_of_not_writes formed known spared, ?_⟩
  induction fuel generalizing callee with
  | zero =>
      intro store after called
      cases called
  | succ fuel inductionHypothesis =>
      intro store after called
      rw [call] at called
      obtain ⟨function, found, called⟩ := Option.bind_eq_some_iff.mp called
      obtain ⟨ended, executed, called⟩ := Option.bind_eq_some_iff.mp called
      cases called
      have member : function ∈ program.functions := List.mem_of_find?_eq_some found
      have named : function.name = callee.name := by
        simpa using List.find?_some found
      have callsSpare :
          ∀ truth inner args,
            Expr.call truth inner args ∈ Stmt.nodesAll function.body →
              inner.Spares (program.call target fuel) name := by
        intro truth inner args inside
        have innerKnown :
            inner ∈ program.functions.map Function.callee := by
          obtain ⟨called, calledMember, rfl, _⟩ :=
            exists_of_call formed
              (List.mem_append_left _
                (List.mem_flatMap.mpr ⟨function, member, inside⟩))
          exact List.mem_map_of_mem calledMember
        have innerSpared : ¬ program.Writes inner.name name := by
          rintro ⟨deeper, writer, chain, writerFound, writes⟩
          have first : program.Calls callee.name inner.name :=
            ⟨function, member, named, truth, inner, args, inside, rfl⟩
          exact
            spared
              ⟨deeper, writer, .head first chain, writerFound, writes⟩
        exact
          ⟨not_mem_params_of_not_writes formed innerKnown innerSpared,
            inductionHypothesis innerKnown innerSpared⟩
      have unassigned : name ∉ Stmt.assignedAll function.body := by
        intro inside
        exact spared ⟨callee.name, function, .refl, found, Or.inr inside⟩
      refine Stmt.values_eq_of_execAll ?_ executed
      intro stmt stmtMember
      refine Stmt.keeps_of_exprs ?_ ?_
      · intro expr exprMember
        refine Expr.keeps_of_spares fun truth inner args inside => ?_
        refine callsSpare truth inner args (Expr.mem_nodesAll.mpr ?_)
        exact ⟨expr, Stmt.mem_exprsAll.mpr ⟨stmt, stmtMember, exprMember⟩, inside⟩
      · intro inside
        exact
          unassigned (Stmt.mem_assignedAll.mpr ⟨stmt, stmtMember, inside⟩)

/-- Evaluation keeps a variable that no call in the expression can write. -/
theorem keeps_of_not_disturbs
    (formed : program.WellFormed) (fuel : Nat) {functions : List Function}
    (known : ∀ function ∈ functions, function ∈ program.functions)
    {expr : Expr} (linked : expr.Linked (functions.map Function.callee))
    (spared : ¬ program.Disturbs expr name) :
    expr.Keeps target (program.call target fuel) name := by
  refine Expr.keeps_of_spares fun truth callee args inside => ?_
  have reached := (Expr.linked_of_mem_nodes linked inside).1
  obtain ⟨function, member, rfl⟩ := List.mem_map.mp reached
  refine
    spares_of_not_writes formed fuel
      (List.mem_map_of_mem (known function member)) ?_
  intro writes
  exact spared ⟨truth, function.callee, args, inside, writes⟩

end Program

end FlatCode
