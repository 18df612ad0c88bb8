import FlatCode.Expr.Callable
import FlatCode.Expr.Level
import Mathlib.Data.Int.Bitwise

/-!
# Operators on truth values

A truth value is the number zero or one.  The operators of the integers, comparisons
and bit operations have one result for two operands, and the others may have many:
`Operator.Gives` says what is asked of them.

Some operators give truth values only, and some do so for truth values.  A level, or a
builtin, notes this on its results, and `Operator.Honest` says that the note is
true.
-/

namespace FlatCode

/-! ## Truth values -/

def truthValue (holds : Prop) [Decidable holds] : Int :=
  if holds then 1 else 0

def IsTruth (value : Int) : Prop :=
  value = 0 ∨ value = 1

theorem isTruth_truthValue (holds : Prop) [Decidable holds] :
    IsTruth (truthValue holds) := by
  unfold truthValue
  split
  · exact Or.inr rfl
  · exact Or.inl rfl

@[simp]
theorem truthValue_eq_zero_iff (holds : Prop) [Decidable holds] :
    truthValue holds = 0 ↔ ¬ holds := by
  unfold truthValue
  split <;> simp_all

/-- A truth value tells by itself whether it is zero. -/
theorem IsTruth.truthValue_ne_zero {value : Int} (truth : IsTruth value) :
    truthValue (value ≠ 0) = value := by
  rcases truth with rfl | rfl <;> rfl

/-- A bitwise disjunction is zero only if both of its operands are. -/
theorem lor_eq_zero_iff (lhs rhs : Int) :
    lhs.lor rhs = 0 ↔ lhs = 0 ∧ rhs = 0 := by
  cases lhs with
  | ofNat lhs =>
      cases rhs with
      | ofNat rhs =>
          simp [Int.lor]
      | negSucc rhs =>
          simp [Int.lor]
  | negSucc lhs =>
      cases rhs with
      | ofNat rhs =>
          simp [Int.lor]
      | negSucc rhs =>
          simp [Int.lor]

/-! ## Results of operators -/

/-- The results that an operator can have for two operands.  Those that are not
fixed by the integers can have any result, but division by zero gives zero, and
division by one leaves the number as it is. -/
def Operator.Gives : Operator → Int → Int → Int → Prop
  | .add, lhs, rhs, result => result = lhs + rhs
  | .sub, lhs, rhs, result => result = lhs - rhs
  | .mul, lhs, rhs, result => result = lhs * rhs
  | .max, lhs, rhs, result => result = Max.max lhs rhs
  | .min, lhs, rhs, result => result = Min.min lhs rhs
  | .or, lhs, rhs, result => result = lhs.lor rhs
  | .and, lhs, rhs, result => result = lhs.land rhs
  | .xor, lhs, rhs, result => result = lhs.xor rhs
  | .logicalAnd, lhs, rhs, result => result = truthValue (lhs ≠ 0 ∧ rhs ≠ 0)
  | .equal, lhs, rhs, result => result = truthValue (lhs = rhs)
  | .notEqual, lhs, rhs, result => result = truthValue (lhs ≠ rhs)
  | .lessThan, lhs, rhs, result => result = truthValue (lhs < rhs)
  | .lessThanEq, lhs, rhs, result => result = truthValue (lhs ≤ rhs)
  | .greaterThan, lhs, rhs, result => result = truthValue (lhs > rhs)
  | .greaterThanEq, lhs, rhs, result => result = truthValue (lhs ≥ rhs)
  | .div, lhs, rhs, result | .intDiv, lhs, rhs, result =>
      (rhs = 0 → result = 0) ∧ (rhs = 1 → result = lhs)
  | .mod, _, rhs, result => rhs = 0 ∨ rhs = 1 → result = 0
  | .pow, lhs, rhs, result =>
      ∀ exponent : Nat, rhs = exponent → result = lhs ^ exponent
  | _, _, _, _ => True

namespace Operator

variable {operator : Operator} {lhs rhs result : Int}

/-- The results of comparisons and of the logical conjunction are truth values. -/
theorem isTruth_of_decides
    (decides :
      operator ∈ [Operator.logicalAnd, .equal, .notEqual, .lessThan,
        .greaterThan, .lessThanEq, .greaterThanEq])
    (gives : operator.Gives lhs rhs result) :
    IsTruth result := by
  simp only [List.mem_cons, List.not_mem_nil, or_false] at decides
  rcases decides with rfl | rfl | rfl | rfl | rfl | rfl | rfl
  all_goals
    cases gives
    exact isTruth_truthValue _

/-- Quotients and remainders of truth values are truth values. -/
theorem isTruth_of_divides
    (divides : operator ∈ [Operator.div, .intDiv, .mod])
    (lhsTruth : IsTruth lhs) (rhsTruth : IsTruth rhs)
    (gives : operator.Gives lhs rhs result) :
    IsTruth result := by
  simp only [List.mem_cons, List.not_mem_nil, or_false] at divides
  rcases divides with rfl | rfl | rfl
  · rcases rhsTruth with zero | one
    · exact Or.inl (gives.1 zero)
    · exact gives.2 one ▸ lhsTruth
  · rcases rhsTruth with zero | one
    · exact Or.inl (gives.1 zero)
    · exact gives.2 one ▸ lhsTruth
  · exact Or.inl (gives rhsTruth)

/-- Powers of truth values with truth values as exponents are truth values. -/
theorem isTruth_of_power
    (lhsTruth : IsTruth lhs) (rhsTruth : IsTruth rhs)
    (gives : Operator.pow.Gives lhs rhs result) :
    IsTruth result := by
  rcases rhsTruth with zero | one
  · have zeroth := gives 0 zero
    rw [pow_zero] at zeroth
    exact Or.inr zeroth
  · have first := gives 1 one
    rw [pow_one] at first
    exact first ▸ lhsTruth

/-- Products, quotients, remainders, powers, bit operations and choices of truth
values are truth values. -/
theorem isTruth_of_preserves
    (preserves :
      operator ∈ [Operator.or, .xor, .and, .mul, .max, .min] ∨
        operator ∈ [Operator.div, .intDiv, .mod] ∨ operator = .pow)
    (lhsTruth : IsTruth lhs) (rhsTruth : IsTruth rhs)
    (gives : operator.Gives lhs rhs result) :
    IsTruth result := by
  rcases preserves with fixed | divides | rfl
  · simp only [List.mem_cons, List.not_mem_nil, or_false] at fixed
    rcases lhsTruth with rfl | rfl <;> rcases rhsTruth with rfl | rfl
    all_goals rcases fixed with rfl | rfl | rfl | rfl | rfl | rfl
    all_goals
      cases gives
      first | exact Or.inl rfl | exact Or.inr rfl
  · exact isTruth_of_divides divides lhsTruth rhsTruth gives
  · exact isTruth_of_power lhsTruth rhsTruth gives

end Operator

/-! ## Notes on strictness -/

/-- What is noted on the strictness of the results of an operator is true. -/
def Operator.Honest (operator : Operator) : Option Bool → Prop
  | some true => ∀ lhs rhs result, operator.Gives lhs rhs result → IsTruth result
  | some false => True
  | none =>
      ∀ lhs rhs result, IsTruth lhs → IsTruth rhs →
        operator.Gives lhs rhs result → IsTruth result

/-- Every level is honest about its operators. -/
theorem Operator.honest_of_mem
    {level : Level} {entry : Token.Kind × Operator}
    (inTable : level ∈ Level.table) (member : entry ∈ level.operators) :
    entry.2.Honest level.strict := by
  have table :
      ∀ level ∈ Level.table, ∀ entry ∈ level.operators,
        (level.strict = some true →
          entry.2 ∈ [Operator.logicalAnd, .equal, .notEqual, .lessThan,
            .greaterThan, .lessThanEq, .greaterThanEq]) ∧
        (level.strict = none →
          entry.2 ∈ [Operator.or, .xor, .and, .mul, .max, .min] ∨
            entry.2 ∈ [Operator.div, .intDiv, .mod] ∨ entry.2 = .pow) := by
    decide
  obtain ⟨always, kept⟩ := table level inTable entry member
  match noted : level.strict with
  | some true =>
      intro lhs rhs result gives
      exact isTruth_of_decides (always noted) gives
  | some false =>
      trivial
  | none =>
      intro lhs rhs result lhsTruth rhsTruth gives
      exact isTruth_of_preserves (kept noted) lhsTruth rhsTruth gives

/-- Every builtin is honest about its results. -/
theorem Operator.honest_strictness (operator : Operator) :
    operator.Honest (Callable.strictness operator) := by
  unfold Callable.strictness
  split
  · next picks =>
      have chosen :
          operator ∈ [Operator.or, .xor, .and, .mul, .max, .min] := by
        cases operator <;> first | decide | cases picks
      intro lhs rhs result lhsTruth rhsTruth gives
      exact isTruth_of_preserves (Or.inl chosen) lhsTruth rhsTruth gives
  · trivial

end FlatCode
