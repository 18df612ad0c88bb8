import FlatCode.Expr.Basic
import FlatCode.Instruction

/-!
# Code of expressions

The value of an expression is asked for in one of two ways:

* anywhere: a variable or a literal is used where it stands, and any other value
  goes into a fresh temporary;
* into a variable: the value is stored there.

Temporaries are numbered from one, and the temporary of an expression is taken
before those of its parts.  The code of each form is

| form      | code                                                           |
|-----------|----------------------------------------------------------------|
| atom      | the store                                                      |
| operation | left operand, right operand, the operation                     |
| load      | index, the read                                                |
| call      | every argument into a temporary, the parameters, the return    |
|           | address, the jump, the store of the result                     |

All arguments of a call are computed before the first parameter is written, so
an argument may mention a parameter of the called function.

The variable `_` is never stored to: only the last instruction of the code is
left out, and everything that computes its operands stays.
-/

namespace FlatCode

/-- Where the value of an expression is asked for. -/
inductive Destination where
  /-- Wherever it is cheapest. -/
  | anywhere
  /-- In one particular variable. -/
  | into (target : Operand)
  deriving DecidableEq, Repr

namespace Destination

/-- The variable that takes a computed value, and the number of temporaries
taken with it when `temps` were in use. -/
def take (destination : Destination) (temps : Nat) : Operand × Nat :=
  match destination with
  | .anywhere => (.temp (temps + 1), temps + 1)
  | .into target => (target, temps)

end Destination

/-- Code that leaves a value in an operand, and the number of temporaries in use
behind it. -/
structure Computed where
  operand : Operand
  code : List Instruction
  temps : Nat
  deriving DecidableEq, Repr

/-- Code that leaves several values in operands, and the number of temporaries
in use behind it. -/
structure ComputedList where
  operands : List Operand
  code : List Instruction
  temps : Nat
  deriving DecidableEq, Repr

/-- An instruction that stores into `target`, left out for the variable that is
never written. -/
def storing (target : Operand) (instruction : Instruction) :
    List Instruction :=
  if target = .discard then [] else [instruction]

namespace Callee

/-- Write the parameters of a function, as far as there are values for them. -/
def passArguments (callee : Callee) (values : List Operand) :
    List Instruction :=
  callee.params.zipWith (fun param value => .set (.word param) value) values

/-- Go to a function and come back behind the jump. -/
def enter (callee : Callee) : List Instruction :=
  [.op .add (.resume callee.name) .counter (.word "1"),
    .jump callee.home .always]

end Callee

namespace Expr

mutual

/-- The code of an expression, with `temps` temporaries in use before it. -/
def lower (destination : Destination) (temps : Nat) : Expr → Computed
  | .atom _ text =>
      match destination with
      | .anywhere => ⟨.word text, [], temps⟩
      | .into target =>
          ⟨target, storing target (.set target (.word text)), temps⟩
  | .binary _ operator lhs rhs =>
      let (target, taken) := destination.take temps
      let left := lower .anywhere taken lhs
      let right := lower .anywhere left.temps rhs
      ⟨target,
        left.code ++ (right.code ++
          storing target (.op operator target left.operand right.operand)),
        right.temps⟩
  | .call _ callee args =>
      let (target, taken) := destination.take temps
      let passed := lowerArguments taken args
      ⟨target,
        passed.code ++ (callee.passArguments passed.operands ++
          (callee.enter ++
            storing target (.set target (.result callee.name)))),
        passed.temps⟩
  | .load _ cell index =>
      let (target, taken) := destination.take temps
      let place := lower .anywhere taken index
      ⟨target,
        place.code ++
          storing target (.read target (.word cell) place.operand),
        place.temps⟩

/-- The code of the arguments of a call, each in a temporary of its own. -/
def lowerArguments (temps : Nat) : List Expr → ComputedList
  | [] => ⟨[], [], temps⟩
  | argument :: others =>
      let first := lower (.into (.temp (temps + 1))) (temps + 1) argument
      let rest := lowerArguments first.temps others
      ⟨first.operand :: rest.operands, first.code ++ rest.code, rest.temps⟩

end

/-- Code that jumps to `target` when an expression holds, or when it does not
hold if `inverted`.  A comparison is tested by the jump itself, every other
expression is computed and compared with zero. -/
def lowerCondition
    (target : Label) (inverted : Bool) (temps : Nat) (expr : Expr) :
    List Instruction × Nat :=
  match expr, expr.comparison? with
  | .binary _ _ lhs rhs, some operator =>
      let left := lower .anywhere temps lhs
      let right := lower .anywhere left.temps rhs
      let tested :=
        if inverted then operator.complement?.getD operator else operator
      (left.code ++ (right.code ++
          [.jump target (.compare tested left.operand right.operand)]),
        right.temps)
  | expr, _ =>
      let value := lower .anywhere temps expr
      let tested : Operator := if inverted then .equal else .notEqual
      (value.code ++ [.jump target (.compare tested value.operand (.word "0"))],
        value.temps)

end Expr

end FlatCode
