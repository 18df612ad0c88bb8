import FlatCode.Proofs.Semantics.Machine

/-!
# Structured execution

The meaning of a program as a tree, without addresses and temporaries.  There is
one store for all variables, the parameters of functions among them, and for each
function the result it gave last.

* An operation or a load evaluates its operands from left to right.  An operand
  that is an atom is only read when the operation is applied, so evaluation gives
  a `Held` operand: a name or a value.
* A call evaluates its arguments from left to right, then gives them to the
  parameters, runs the body of the function and yields the result it gave last.
* The value of an assignment to a memory cell is evaluated before the index.
* A value that is assigned to the variable `_` is only evaluated.
* Statements that leave or repeat a loop act on the innermost loop around them.

Calls and loops may go on forever, so execution has a bound `fuel` on the depth of
calls and on the rounds of each loop; it has no answer where the bound is too
small.
-/

namespace FlatCode

/-- What the statements of a program work on. -/
structure Store (Value Memory : Type) where
  values : String → Value
  results : String → Value
  memory : Memory

/-- An evaluated operand: an atom, which is read later, or a value. -/
inductive Held (Value : Type) where
  | name (text : String)
  | value (value : Value)

/-- How a statement ends. -/
inductive Outcome where
  | normal
  | broke
  | continued
  | returned
  deriving DecidableEq

namespace Store

variable {Value Memory : Type}

def assign (store : Store Value Memory) (name : String) (value : Value) :
    Store Value Memory :=
  { store with
    values := fun other =>
      if other = name then value else store.values other }

/-- Give several variables values, as far as there are some. -/
def assignAll (store : Store Value Memory) :
    List String → List Value → Store Value Memory
  | name :: names, value :: values =>
      (store.assign name value).assignAll names values
  | [], _ | _, [] => store

def record (store : Store Value Memory) (function : String) (value : Value) :
    Store Value Memory :=
  { store with
    results := fun other =>
      if other = function then value else store.results other }

end Store

namespace Target

variable {Value Memory : Type} [DecidableEq Value]
  (target : Target Value Memory)

def read (store : Store Value Memory) (text : String) : Value :=
  (target.literal? text).getD (store.values text)

def get (store : Store Value Memory) : Held Value → Value
  | .name text => target.read store text
  | .value value => value

variable (invoke : Callee → Store Value Memory → Option (Store Value Memory))

mutual

/-- Evaluate an expression, where `invoke` runs the body of a function. -/
def eval : Expr → Store Value Memory →
    Option (Held Value × Store Value Memory)
  | .atom _ text, store => some (.name text, store)
  | .binary _ operator lhs rhs, store => do
      let left ← eval lhs store
      let right ← eval rhs left.2
      some
        (.value
          (target.operate operator (target.get right.2 left.1)
            (target.get right.2 right.1)),
          right.2)
  | .call _ callee args, store => do
      let passed ← evalAll args store
      let after ← invoke callee (passed.2.assignAll callee.params passed.1)
      some (.value (after.results callee.name), after)
  | .load _ cell index, store => do
      let place ← eval index store
      some
        (.value
          (target.load (target.read place.2 cell)
            (target.get place.2 place.1) place.2.memory),
          place.2)

def evalAll : List Expr → Store Value Memory →
    Option (List Value × Store Value Memory)
  | [], store => some ([], store)
  | argument :: others, store => do
      let first ← eval argument store
      let rest ← evalAll others first.2
      some (target.get first.2 first.1 :: rest.1, rest.2)

end

/-- Evaluate a condition, which holds if its value is not zero. -/
def test (condition : Expr) (store : Store Value Memory) :
    Option (Bool × Store Value Memory) := do
  let result ← target.eval invoke condition store
  some (target.get result.2 result.1 ≠ target.zero, result.2)

/-- Repeat a loop for a number of rounds at most. -/
def repeatLoop
    (condition : Store Value Memory → Option (Bool × Store Value Memory))
    (body : Store Value Memory → Option (Outcome × Store Value Memory)) :
    Nat → Store Value Memory → Option (Outcome × Store Value Memory)
  | 0, _ => none
  | rounds + 1, store => do
      let tested ← condition store
      if tested.1 then
        let ended ← body tested.2
        match ended.1 with
        | .normal | .continued => repeatLoop condition body rounds ended.2
        | .broke => some (.normal, ended.2)
        | .returned => some (.returned, ended.2)
      else
        some (.normal, tested.2)

mutual

/-- Run a statement, where `around` are the labels of the innermost loop around
it. -/
def exec (fuel : Nat) (around : Option Stmt.LoopLabels) :
    Stmt → Store Value Memory → Option (Outcome × Store Value Memory)
  | .assign name value, store => do
      let result ← target.eval invoke value store
      if name = "_" then
        some (.normal, result.2)
      else
        some (.normal, result.2.assign name (target.get result.2 result.1))
  | .store cell index value, store => do
      let stored ← target.eval invoke value store
      let place ← target.eval invoke index stored.2
      some
        (.normal,
          { place.2 with
            memory :=
              target.save (target.get place.2 stored.1)
                (target.read place.2 cell) (target.get place.2 place.1)
                place.2.memory })
  | .ifThen condition thenBranch, store => do
      let tested ← target.test invoke condition store
      if tested.1 then
        exec fuel around thenBranch tested.2
      else
        some (.normal, tested.2)
  | .ifElse condition thenBranch elseBranch, store => do
      let tested ← target.test invoke condition store
      if tested.1 then
        exec fuel around thenBranch tested.2
      else
        exec fuel around elseBranch tested.2
  | .loop home exit condition body, store =>
      repeatLoop (target.test invoke condition)
        (exec fuel (some ⟨home, exit⟩) body) fuel store
  | .ret _ none, store => some (.returned, store)
  | .ret function (some value), store => do
      let result ← target.eval invoke value store
      some
        (.returned,
          result.2.record function (target.get result.2 result.1))
  | .jump label, store =>
      match around with
      | none => none
      | some labels =>
          if label = labels.exit then
            some (.broke, store)
          else if label = labels.home then
            some (.continued, store)
          else
            none
  | .raw _, _ => none
  | .block body, store => execAll fuel around body store
  | .empty, store => some (.normal, store)

/-- Run statements one after the other, up to the first one that does not end
normally. -/
def execAll (fuel : Nat) (around : Option Stmt.LoopLabels) :
    List Stmt → Store Value Memory → Option (Outcome × Store Value Memory)
  | [], store => some (.normal, store)
  | first :: others, store => do
      let ended ← exec fuel around first store
      match ended.1 with
      | .normal => execAll fuel around others ended.2
      | outcome => some (outcome, ended.2)

end

end Target

namespace Program

variable {Value Memory : Type} [DecidableEq Value]

def call (program : Program) (target : Target Value Memory) :
    Nat → Callee → Store Value Memory → Option (Store Value Memory)
  | 0, _, _ => none
  | fuel + 1, callee, store => do
      let function ← program.function? callee.name
      let ended ←
        target.execAll (call program target fuel) fuel none function.body store
      some ended.2

def run (program : Program) (target : Target Value Memory) (fuel : Nat)
    (store : Store Value Memory) : Option (Store Value Memory) := do
  let ended ←
    target.execAll (program.call target fuel) fuel none program.main store
  some ended.2

end Program

end FlatCode
