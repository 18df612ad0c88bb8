import FlatCode.Proofs.Semantics.Execution

/-!
# Stores on the way

What an execution does before it ends, or if it never ends: the stores it has behind
each statement of a sequence and behind each round of a loop, in order, in called
functions as well.  Where the bound of an execution is too small, the trace goes as
far as the bound allows, so a larger bound shows more of it.
-/

namespace FlatCode

/-- Nothing comes behind an answer. -/
theorem elim_nil {Answer Item : Type} (answer : Option Answer) :
    answer.elim [] (fun _ => ([] : List Item)) = [] := by
  cases answer <;> rfl

theorem elim_bind
    {Answer Later Item : Type} (answer : Option Answer)
    (next : Answer → Option Later) (more : Later → List Item) :
    (answer.bind next).elim [] more =
      answer.elim [] fun result => (next result).elim [] more := by
  cases answer <;> rfl

namespace Target

variable {Value Memory : Type} [DecidableEq Value]
  (target : Target Value Memory)
  (invoke : Callee → Store Value Memory → Option (Store Value Memory))
  (visits : Callee → Store Value Memory → List (Store Value Memory))

mutual

/-- The stores behind the statements that are run for the value of an expression,
where `visits` gives those in the body of a function. -/
def evalTrace : Expr → Store Value Memory → List (Store Value Memory)
  | .atom _ _, _ => []
  | .binary _ _ lhs rhs, store =>
      evalTrace lhs store ++
        (target.eval invoke lhs store).elim [] fun left =>
          evalTrace rhs left.2
  | .call _ callee args, store =>
      evalAllTrace args store ++
        (target.evalAll invoke args store).elim [] fun passed =>
          visits callee (passed.2.assignAll callee.params passed.1)
  | .load _ _ index, store => evalTrace index store

def evalAllTrace : List Expr → Store Value Memory → List (Store Value Memory)
  | [], _ => []
  | argument :: others, store =>
      evalTrace argument store ++
        (target.eval invoke argument store).elim [] fun first =>
          evalAllTrace others first.2

end

/-- The stores in and behind the rounds of a loop. -/
def repeatTrace
    (condition : Store Value Memory → Option (Bool × Store Value Memory))
    (body : Store Value Memory → Option (Outcome × Store Value Memory))
    (tests bodies : Store Value Memory → List (Store Value Memory)) :
    Nat → Store Value Memory → List (Store Value Memory)
  | 0, _ => []
  | rounds + 1, store =>
      tests store ++
        (condition store).elim [] fun tested =>
          if tested.1 then
            bodies tested.2 ++
              (body tested.2).elim [] fun ended =>
                ended.2 ::
                  match ended.1 with
                  | .normal | .continued =>
                      repeatTrace condition body tests bodies rounds ended.2
                  | .broke | .returned => []
          else
            []

mutual

/-- The stores on the way through a statement. -/
def execTrace (fuel : Nat) (around : Option Stmt.LoopLabels) :
    Stmt → Store Value Memory → List (Store Value Memory)
  | .assign _ value, store => target.evalTrace invoke visits value store
  | .store _ index value, store =>
      target.evalTrace invoke visits value store ++
        (target.eval invoke value store).elim [] fun stored =>
          target.evalTrace invoke visits index stored.2
  | .ifThen condition thenBranch, store =>
      target.evalTrace invoke visits condition store ++
        (target.test invoke condition store).elim [] fun tested =>
          if tested.1 then execTrace fuel around thenBranch tested.2 else []
  | .ifElse condition thenBranch elseBranch, store =>
      target.evalTrace invoke visits condition store ++
        (target.test invoke condition store).elim [] fun tested =>
          if tested.1 then
            execTrace fuel around thenBranch tested.2
          else
            execTrace fuel around elseBranch tested.2
  | .loop home exit condition body, store =>
      repeatTrace (target.test invoke condition)
        (target.exec invoke fuel (some ⟨home, exit⟩) body)
        (target.evalTrace invoke visits condition)
        (execTrace fuel (some ⟨home, exit⟩) body) fuel store
  | .ret _ none, _ => []
  | .ret _ (some value), store => target.evalTrace invoke visits value store
  | .jump _, _ | .raw _, _ | .empty, _ => []
  | .block body, store => execAllTrace fuel around body store

def execAllTrace (fuel : Nat) (around : Option Stmt.LoopLabels) :
    List Stmt → Store Value Memory → List (Store Value Memory)
  | [], _ => []
  | first :: others, store =>
      execTrace fuel around first store ++
        (target.exec invoke fuel around first store).elim [] fun ended =>
          ended.2 ::
            match ended.1 with
            | .normal => execAllTrace fuel around others ended.2
            | .broke | .continued | .returned => []

end

end Target

namespace Program

variable {Value Memory : Type} [DecidableEq Value]
  (program : Program) (target : Target Value Memory)

def callTrace : Nat → Callee → Store Value Memory → List (Store Value Memory)
  | 0, _, _ => []
  | fuel + 1, callee, store =>
      (program.function? callee.name).elim [] fun function =>
        target.execAllTrace (program.call target fuel) (callTrace fuel) fuel
          none function.body store

/-- The stores on the way through the main statements of a program. -/
def trace (fuel : Nat) (store : Store Value Memory) :
    List (Store Value Memory) :=
  target.execAllTrace (program.call target fuel)
    (program.callTrace target fuel) fuel none program.main store

end Program

end FlatCode
