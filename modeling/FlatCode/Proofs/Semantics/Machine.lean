import FlatCode.Listing
import FlatCode.Proofs.Reading.Word

/-!
# The target machine

What the operators, literals and memory accesses of the machine mean is left
open.  A `Target` fixes it, together with the few laws that code relies on:

* zero and one have their usual spellings, and a name that starts with a dollar
  sign is not a literal;
* an address is a value, adding one gives the next address, and the address
  counter can be set to it;
* a comparison and its complement disagree, and comparing with zero tests for
  zero.

Reading the address counter gives the address of the next instruction, and
writing it jumps.  The machine stops at the instruction made for it and behind
the last instruction.

A state holds one value for each variable.  Code names a variable by an operand;
which variable an operand stands for is a parameter `name`, so that variables can
be told apart by their texts, as the machine does, or by the operands themselves.
-/

namespace FlatCode

/-- The meaning of operators, literals, memory and addresses. -/
structure Target (Value Memory : Type) where
  zero : Value
  one : Value
  literal? : String → Option Value
  operate : Operator → Value → Value → Value
  /-- The content of a cell at an index. -/
  load : Value → Value → Memory → Value
  /-- Store a value into a cell at an index. -/
  save : Value → Value → Value → Memory → Memory
  address : Nat → Value
  counter? : Value → Option Nat
  literal_zero : literal? "0" = some zero
  literal_one : literal? "1" = some one
  literal_dollar : ∀ text, ¬ Undollared text → literal? text = none
  counter_address : ∀ number, counter? (address number) = some number
  add_one : ∀ number,
    operate .add (address number) one = address (number + 1)
  equal_zero : ∀ value, operate .equal value zero = zero ↔ value ≠ zero
  complement : ∀ operator other, operator.complement? = some other →
    ∀ lhs rhs, operate other lhs rhs = zero ↔ operate operator lhs rhs ≠ zero

/-- The address counter, the variables and the memory of a machine. -/
structure State (Name Value Memory : Type) where
  counter : Nat
  values : Name → Value
  memory : Memory

namespace State

variable {Name Value Memory : Type}

def next (state : State Name Value Memory) : State Name Value Memory :=
  { state with counter := state.counter + 1 }

def goTo (state : State Name Value Memory) (address : Nat) :
    State Name Value Memory :=
  { state with counter := address }

def assign [DecidableEq Name]
    (state : State Name Value Memory) (name : Name) (value : Value) :
    State Name Value Memory :=
  { state with
    values := fun other =>
      if other = name then value else state.values other }

end State

/-- The machine stops at an address: there is the instruction made for it, or no
instruction at all. -/
def Assembly.Stops (assembly : Assembly) (address : Nat) : Prop :=
  assembly.code[address]? = none ∨ assembly.code[address]? = some .halt

namespace Target

variable {Name Value Memory : Type} [DecidableEq Name] [DecidableEq Value]
  (target : Target Value Memory) (name : Operand → Name)
  (assembly : Assembly)

def value (state : State Name Value Memory) (operand : Operand) : Value :=
  if operand.render = "@counter" then
    target.address (state.counter + 1)
  else
    (target.literal? operand.render).getD (state.values (name operand))

/-- Write an operand and go on, or go to the address written into the address
counter. -/
def put
    (state : State Name Value Memory) (operand : Operand) (value : Value) :
    Option (State Name Value Memory) :=
  if operand.render = "@counter" then
    (target.counter? value).map state.goTo
  else
    some (state.next.assign (name operand) value)

def taken (state : State Name Value Memory) : Condition → Bool
  | .always => true
  | .compare operator lhs rhs =>
      target.operate operator (target.value name state lhs)
        (target.value name state rhs) ≠ target.zero

/-- Carry out one instruction, unless the machine stops there.  Nothing is known
of raw instructions. -/
def perform (state : State Name Value Memory) :
    Instruction → Option (State Name Value Memory)
  | .set result value =>
      target.put name state result (target.value name state value)
  | .op operator result lhs rhs =>
      target.put name state result
        (target.operate operator (target.value name state lhs)
          (target.value name state rhs))
  | .jump label condition =>
      if target.taken name state condition then
        (assembly.labels.address? label).map state.goTo
      else
        some state.next
  | .read result cell index =>
      target.put name state result
        (target.load (target.value name state cell)
          (target.value name state index) state.memory)
  | .write value cell index =>
      some
        { state.next with
          memory :=
            target.save (target.value name state value)
              (target.value name state cell) (target.value name state index)
              state.memory }
  | .raw _ => none
  | .halt => none
  | .noop => some state.next

def step (state : State Name Value Memory) :
    Option (State Name Value Memory) :=
  (assembly.code[state.counter]?).bind (target.perform name assembly state)

def steps : Nat → State Name Value Memory → Option (State Name Value Memory)
  | 0, state => some state
  | count + 1, state =>
      (target.step name assembly state).bind (steps count)

/-- The machine comes from one state to another and stops there. -/
def Halts (before after : State Name Value Memory) : Prop :=
  (∃ count, target.steps name assembly count before = some after) ∧
    assembly.Stops after.counter

end Target

/-! ## A machine on integers -/

/-- The operators that make sense on integers; all others give zero. -/
def Operator.onIntegers (operator : Operator) (lhs rhs : Int) : Int :=
  match operator with
  | .add => lhs + rhs
  | .sub => lhs - rhs
  | .mul => lhs * rhs
  | .equal => if lhs = rhs then 1 else 0
  | .notEqual => if lhs = rhs then 0 else 1
  | .lessThan => if lhs < rhs then 1 else 0
  | .greaterThanEq => if lhs < rhs then 0 else 1
  | .greaterThan => if rhs < lhs then 1 else 0
  | .lessThanEq => if rhs < lhs then 0 else 1
  | _ => 0

def digits? (text : String) : Option Int :=
  if text.toList.all Char.isDigit then
    some (Nat.ofDigitChars 10 text.toList 0)
  else
    none

def integers : Target Int (Int → Int → Int) where
  zero := 0
  one := 1
  literal? := digits?
  operate := Operator.onIntegers
  load cell index memory := memory cell index
  save value cell index memory := fun other place =>
    if other = cell ∧ place = index then value else memory other place
  address number := number
  counter? value := if 0 ≤ value then some value.toNat else none
  literal_zero := by decide
  literal_one := by decide
  literal_dollar := by
    intro text dollared
    have head : text.toList.head? = some '$' :=
      Decidable.not_not.mp dollared
    obtain ⟨rest, characters⟩ := List.head?_eq_some_iff.mp head
    rw [digits?, characters]
    rfl
  counter_address := by simp
  add_one := by simp [Operator.onIntegers]
  equal_zero := by simp [Operator.onIntegers]
  complement := by
    intro operator other complemented lhs rhs
    cases operator <;> cases complemented <;> simp [Operator.onIntegers]

end FlatCode
