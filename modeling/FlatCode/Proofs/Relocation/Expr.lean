import FlatCode.Proofs.Lowering.Expr

/-!
# Expression code under more temporaries

The numbers of the temporaries that expression code takes depend on how many are
in use before it, and nothing else in the code does.  So code made with `amount`
more of them in use is the same code with the number of every temporary raised by
`amount`: `Expr.lower_shift`.
-/

namespace FlatCode

namespace Operand

/-- Raise the number of a temporary. -/
def shift (amount : Nat) : Operand → Operand
  | .temp number => .temp (number + amount)
  | .word text => .word text
  | .resume function => .resume function
  | .result function => .result function

section Shift

variable (amount number : Nat) (text : String)

@[simp]
theorem shift_temp :
    (Operand.temp number).shift amount = .temp (number + amount) := rfl

@[simp]
theorem shift_word : (Operand.word text).shift amount = .word text := rfl

@[simp]
theorem shift_resume : (Operand.resume text).shift amount = .resume text := rfl

@[simp]
theorem shift_result : (Operand.result text).shift amount = .result text := rfl

end Shift

theorem shift_eq_discard {amount : Nat} {operand : Operand} :
    operand.shift amount = .discard ↔ operand = .discard := by
  cases operand <;> simp [discard]

end Operand

def Condition.shift (amount : Nat) : Condition → Condition
  | .always => .always
  | .compare operator lhs rhs =>
      .compare operator (lhs.shift amount) (rhs.shift amount)

def Instruction.shift (amount : Nat) : Instruction → Instruction
  | .set target value => .set (target.shift amount) (value.shift amount)
  | .op operator target lhs rhs =>
      .op operator (target.shift amount) (lhs.shift amount) (rhs.shift amount)
  | .jump target condition => .jump target (condition.shift amount)
  | .read target cell index =>
      .read (target.shift amount) (cell.shift amount) (index.shift amount)
  | .write value cell index =>
      .write (value.shift amount) (cell.shift amount) (index.shift amount)
  | .raw text => .raw text
  | .halt => .halt
  | .noop => .noop

def Destination.shift (amount : Nat) : Destination → Destination
  | .anywhere => .anywhere
  | .into target => .into (target.shift amount)

@[simp]
theorem Destination.shift_anywhere (amount : Nat) :
    Destination.anywhere.shift amount = .anywhere := rfl

@[simp]
theorem Destination.shift_into (amount : Nat) (target : Operand) :
    (Destination.into target).shift amount = .into (target.shift amount) := rfl

def Computed.shift (amount : Nat) (computed : Computed) : Computed where
  operand := computed.operand.shift amount
  code := computed.code.map (Instruction.shift amount)
  temps := computed.temps + amount

def ComputedList.shift (amount : Nat) (computed : ComputedList) :
    ComputedList where
  operands := computed.operands.map (Operand.shift amount)
  code := computed.code.map (Instruction.shift amount)
  temps := computed.temps + amount

variable (amount : Nat)

theorem storing_shift (target : Operand) (instruction : Instruction) :
    storing (target.shift amount) (instruction.shift amount) =
      (storing target instruction).map (Instruction.shift amount) := by
  unfold storing
  by_cases discarded : target = .discard
  · rw [if_pos (Operand.shift_eq_discard.mpr discarded), if_pos discarded]
    rfl
  · rw [if_neg (mt Operand.shift_eq_discard.mp discarded), if_neg discarded]
    rfl

namespace Callee

theorem passArguments_shift (callee : Callee) (values : List Operand) :
    callee.passArguments (values.map (Operand.shift amount)) =
      (callee.passArguments values).map (Instruction.shift amount) := by
  unfold passArguments
  rw [List.zipWith_map_right, List.map_zipWith]
  rfl

theorem enter_shift (callee : Callee) :
    callee.enter.map (Instruction.shift amount) = callee.enter := rfl

end Callee

namespace Expr

theorem lower_anywhere_shift
    {expr : Expr} (temps : Nat)
    (shifted : ∀ target temps,
      expr.lower (.into (target.shift amount)) (temps + amount) =
        (expr.lower (.into target) temps).shift amount) :
    expr.lower .anywhere (temps + amount) =
      (expr.lower .anywhere temps).shift amount := by
  by_cases atom : expr.IsAtom
  · cases expr with
    | atom truth text =>
        rw [lower_anywhere_atom, lower_anywhere_atom]
        rfl
    | binary | call | load =>
        exact atom.elim
  · rw [lower_anywhere_eq_into atom, lower_anywhere_eq_into atom, ← shifted,
      Operand.shift_temp, Nat.add_right_comm]

theorem lowerArguments_shift
    {args : List Expr} (temps : Nat)
    (shifted : ∀ arg ∈ args, ∀ target temps,
      arg.lower (.into (target.shift amount)) (temps + amount) =
        (arg.lower (.into target) temps).shift amount) :
    lowerArguments (temps + amount) args =
      (lowerArguments temps args).shift amount := by
  induction args generalizing temps with
  | nil =>
      simp only [lowerArguments]
      rfl
  | cons first others inductionHypothesis =>
      rw [List.forall_mem_cons] at shifted
      have head := shifted.1 (.temp (temps + 1)) (temps + 1)
      rw [Operand.shift_temp, Nat.add_right_comm] at head
      have tail :=
        inductionHypothesis
          (first.lower (.into (.temp (temps + 1))) (temps + 1)).temps shifted.2
      simp only [lowerArguments, head]
      rw [Computed.shift, tail]
      simp [ComputedList.shift]

theorem lower_into_shift (expr : Expr) (target : Operand) (temps : Nat) :
    expr.lower (.into (target.shift amount)) (temps + amount) =
      (expr.lower (.into target) temps).shift amount := by
  induction expr generalizing target temps with
  | atom truth text =>
      rw [lower_into_atom, lower_into_atom]
      rw [Computed.shift, ← storing_shift]
      rfl
  | binary truth operator lhs rhs lhsShifted rhsShifted =>
      have left := lower_anywhere_shift amount temps lhsShifted
      have right :=
        lower_anywhere_shift amount (lhs.lower .anywhere temps).temps
          rhsShifted
      simp only [lower_into_binary, left, Computed.shift, List.map_append]
      rw [right, ← storing_shift]
      rfl
  | call truth callee args argsShifted =>
      have passed := lowerArguments_shift amount temps argsShifted
      simp only [lower_into_call, passed, Computed.shift, List.map_append,
        ComputedList.shift]
      rw [Callee.passArguments_shift, Callee.enter_shift, ← storing_shift]
      rfl
  | load truth cell index indexShifted =>
      have place := lower_anywhere_shift amount temps indexShifted
      simp only [lower_into_load, place, Computed.shift, List.map_append]
      rw [← storing_shift]
      rfl

/-- With more temporaries in use, the code of an expression is the same but for
the numbers of its temporaries. -/
theorem lower_shift (expr : Expr) (destination : Destination) (temps : Nat) :
    expr.lower (destination.shift amount) (temps + amount) =
      (expr.lower destination temps).shift amount := by
  cases destination with
  | anywhere =>
      exact lower_anywhere_shift amount temps (lower_into_shift amount expr)
  | into target =>
      exact lower_into_shift amount expr target temps

end Expr

end FlatCode
