import FlatCode.Label
import FlatCode.Operator

/-!
# Instructions of the target machine

The target has named variables, memory cells and a flat list of instructions;
its address counter is the variable `@counter`.  There is no stack.  Besides the
names of the source, code uses three families of variables of its own:

* numbered temporaries;
* for each function, the address at which its caller goes on;
* for each function, the result of its last call.

A jump names a label until it is rendered, when the label is replaced by its
address.
-/

namespace FlatCode

/-- A name or a literal in an instruction. -/
inductive Operand where
  /-- A name or a literal of the source. -/
  | word (text : String)
  /-- A numbered temporary. -/
  | temp (number : Nat)
  /-- Where the caller of a function goes on. -/
  | resume (function : String)
  /-- The result of a function. -/
  | result (function : String)
  deriving DecidableEq, Repr

namespace Operand

def render : Operand → String
  | .word text => text
  | .temp number => "$tmp$" ++ toString number
  | .resume function => "$ra$" ++ function
  | .result function => "$ret$" ++ function

def counter : Operand :=
  .word "@counter"

/-- The name of the variable that is never written. -/
def discard : Operand :=
  .word "_"

end Operand

/-- When a jump is taken. -/
inductive Condition where
  | always
  | compare (operator : Operator) (lhs rhs : Operand)
  deriving DecidableEq, Repr

namespace Condition

/-- The text of a condition behind the address of a jump. -/
def render : Condition → String
  | .always => "always"
  | .compare operator lhs rhs =>
      operator.mnemonic ++ " " ++ lhs.render ++ " " ++ rhs.render

end Condition

inductive Instruction where
  /-- Copy a value. -/
  | set (target value : Operand)
  /-- Apply an operator. -/
  | op (operator : Operator) (target lhs rhs : Operand)
  /-- Go to a label under a condition. -/
  | jump (target : Label) (condition : Condition)
  /-- Read a memory cell. -/
  | read (target cell index : Operand)
  /-- Write a memory cell. -/
  | write (value cell index : Operand)
  /-- An instruction that is taken as it is. -/
  | raw (text : String)
  /-- Stop. -/
  | halt
  /-- Do nothing. -/
  | noop
  deriving DecidableEq, Repr

namespace Instruction

/-- The text of an instruction, with labels replaced by their addresses. -/
def render (labels : LabelTable) : Instruction → Except LabelFault String
  | .set target value =>
      .ok ("set " ++ target.render ++ " " ++ value.render)
  | .op operator target lhs rhs =>
      .ok
        ("op " ++ operator.mnemonic ++ " " ++ target.render ++ " "
          ++ lhs.render ++ " " ++ rhs.render)
  | .jump target condition =>
      match labels.address? target with
      | some address =>
          .ok ("jump " ++ toString address ++ " " ++ condition.render)
      | none => .error (.neverPlaced target)
  | .read target cell index =>
      .ok
        ("read " ++ target.render ++ " " ++ cell.render ++ " " ++ index.render)
  | .write value cell index =>
      .ok
        ("write " ++ value.render ++ " " ++ cell.render ++ " " ++ index.render)
  | .raw text => .ok text
  | .halt => .ok "end"
  | .noop => .ok "noop"

end Instruction

end FlatCode
