import FlatCode.Program.Basic
import FlatCode.Proofs.Truth.Operator

/-!
# Values of expressions over the integers

An `Environment` gives every variable and literal an integer, and says what loads,
calls and operators give.  Addition, subtraction, multiplication, the greater and
the smaller of two numbers, bit operations and comparisons are those of the
integers.  Of the other operators only a few values are fixed:

* dividing by zero gives zero, and dividing by one changes nothing and leaves no
  remainder;
* powers with natural exponents are those of the integers, so zero to the power
  of zero is one;
* `abs`, `floor`, `ceil` and `sqrt` leave zero and one as they are.

An expression of a program is in a value position if it is assigned, stored,
returned, an index or an argument of a call; the other expressions that statements
hold are conditions.
-/

namespace FlatCode

/-! ## Environments -/

/-- Integers for variables and literals, and the meaning of loads, calls and
operators. -/
structure Environment where
  word : String → Int
  /-- The content of a memory cell at an index. -/
  cell : String → Int → Int
  /-- The result of a function for its arguments. -/
  function : Callee → List Int → Int
  /-- The operators that are not fixed by the integers. -/
  other : Operator → Int → Int → Int
  word_zero : word "0" = 0
  divide_zero :
    ∀ operator ∈ [Operator.div, .intDiv, .mod], ∀ value,
      other operator value 0 = 0
  divide_one :
    ∀ operator ∈ [Operator.div, .intDiv], ∀ value, other operator value 1 = value
  mod_one : ∀ value, other .mod value 1 = 0
  pow_nat :
    ∀ (value : Int) (exponent : Nat), other .pow value exponent = value ^ exponent
  keeps_truth :
    ∀ operator ∈ [Operator.abs, .floor, .ceil, .sqrt], ∀ value,
      IsTruth value → other operator value 0 = value

namespace Environment

variable (environment : Environment)

def operate : Operator → Int → Int → Int
  | .add, lhs, rhs => lhs + rhs
  | .sub, lhs, rhs => lhs - rhs
  | .mul, lhs, rhs => lhs * rhs
  | .max, lhs, rhs => max lhs rhs
  | .min, lhs, rhs => min lhs rhs
  | .or, lhs, rhs => lhs.lor rhs
  | .and, lhs, rhs => lhs.land rhs
  | .xor, lhs, rhs => lhs.xor rhs
  | .logicalAnd, lhs, rhs => truthValue (lhs ≠ 0 ∧ rhs ≠ 0)
  | .equal, lhs, rhs => truthValue (lhs = rhs)
  | .notEqual, lhs, rhs => truthValue (lhs ≠ rhs)
  | .lessThan, lhs, rhs => truthValue (lhs < rhs)
  | .lessThanEq, lhs, rhs => truthValue (lhs ≤ rhs)
  | .greaterThan, lhs, rhs => truthValue (lhs > rhs)
  | .greaterThanEq, lhs, rhs => truthValue (lhs ≥ rhs)
  | operator, lhs, rhs => environment.other operator lhs rhs

/-- The value of an operation is one of the results that its operator can have. -/
theorem gives_operate (operator : Operator) (lhs rhs : Int) :
    operator.Gives lhs rhs (environment.operate operator lhs rhs) := by
  cases operator
  case div =>
    refine ⟨?_, ?_⟩
    · rintro rfl
      exact environment.divide_zero .div (by simp) lhs
    · rintro rfl
      exact environment.divide_one .div (by simp) lhs
  case intDiv =>
    refine ⟨?_, ?_⟩
    · rintro rfl
      exact environment.divide_zero .intDiv (by simp) lhs
    · rintro rfl
      exact environment.divide_one .intDiv (by simp) lhs
  case mod =>
    rintro (rfl | rfl)
    · exact environment.divide_zero .mod (by simp) lhs
    · exact environment.mod_one lhs
  case pow =>
    rintro exponent rfl
    exact environment.pow_nat lhs exponent
  all_goals first | exact rfl | trivial

/-- Whether a disjunction or a conjunction is zero depends only on which operands
are zero. -/
theorem operate_eq_zero_congr
    {operator : Operator} (joins : operator ∈ [Operator.or, .logicalAnd])
    {lhs rhs lhsOther rhsOther : Int} (lhsZero : lhs = 0 ↔ lhsOther = 0)
    (rhsZero : rhs = 0 ↔ rhsOther = 0) :
    environment.operate operator lhs rhs = 0 ↔
      environment.operate operator lhsOther rhsOther = 0 := by
  simp only [List.mem_cons, List.not_mem_nil, or_false] at joins
  rcases joins with rfl | rfl
  · simp only [operate, lor_eq_zero_iff, lhsZero, rhsZero]
  · simp only [operate, truthValue_eq_zero_iff, ne_eq, lhsZero, rhsZero]

end Environment

/-! ## Values and value positions -/

namespace Expr

mutual

@[simp]
def eval (environment : Environment) : Expr → Int
  | .atom _ text => environment.word text
  | .binary _ operator lhs rhs =>
      environment.operate operator (lhs.eval environment)
        (rhs.eval environment)
  | .call _ callee args =>
      environment.function callee (evalAll environment args)
  | .load _ cell index => environment.cell cell (index.eval environment)

@[simp]
def evalAll (environment : Environment) : List Expr → List Int
  | [] => []
  | first :: others => first.eval environment :: evalAll environment others

end

mutual

/-- The indices and the arguments of calls inside an expression, at every depth. -/
@[simp]
def passed : Expr → List Expr
  | .atom _ _ => []
  | .binary _ _ lhs rhs => lhs.passed ++ rhs.passed
  | .call _ _ args => args ++ passedAll args
  | .load _ _ index => index :: index.passed

@[simp]
def passedAll : List Expr → List Expr
  | [] => []
  | first :: others => first.passed ++ passedAll others

end

@[simp]
theorem evalAll_eq_map (environment : Environment) (exprs : List Expr) :
    evalAll environment exprs = exprs.map (eval environment) := by
  induction exprs with
  | nil =>
      simp
  | cons first others inductionHypothesis =>
      simp [inductionHypothesis]

@[simp]
theorem eval_withTruth
    (environment : Environment) (truth : Truth) (expr : Expr) :
    (expr.withTruth truth).eval environment = expr.eval environment := by
  cases expr <;> simp

@[simp]
theorem passed_withTruth (truth : Truth) (expr : Expr) :
    (expr.withTruth truth).passed = expr.passed := by
  cases expr <;> simp

@[simp]
theorem eval_zero (environment : Environment) : zero.eval environment = 0 := by
  rw [zero, eval]
  exact environment.word_zero

@[simp]
theorem passed_zero : zero.passed = [] := by
  rw [zero, passed]

end Expr

namespace Stmt

mutual

/-- The expressions of a statement in value positions, at every depth. -/
@[simp]
def values : Stmt → List Expr
  | .assign _ value => value :: value.passed
  | .store _ index value =>
      (index :: index.passed) ++ (value :: value.passed)
  | .ifThen condition thenBranch => condition.passed ++ thenBranch.values
  | .ifElse condition thenBranch elseBranch =>
      condition.passed ++ (thenBranch.values ++ elseBranch.values)
  | .loop _ _ condition body => condition.passed ++ body.values
  | .ret _ (some value) => value :: value.passed
  | .block body => valuesAll body
  | .ret _ none | .jump _ | .raw _ | .empty => []

@[simp]
def valuesAll : List Stmt → List Expr
  | [] => []
  | first :: others => first.values ++ valuesAll others

end

mutual

/-- The conditions of a statement, at every depth. -/
@[simp]
def conditions : Stmt → List Expr
  | .ifThen condition thenBranch => condition :: thenBranch.conditions
  | .ifElse condition thenBranch elseBranch =>
      condition :: (thenBranch.conditions ++ elseBranch.conditions)
  | .loop _ _ condition body => condition :: body.conditions
  | .block body => conditionsAll body
  | .assign .. | .store .. | .ret .. | .jump _ | .raw _ | .empty => []

@[simp]
def conditionsAll : List Stmt → List Expr
  | [] => []
  | first :: others => first.conditions ++ conditionsAll others

end

end Stmt

namespace Program

/-- The statement lists of a program: the bodies of its functions and the main
statements. -/
def bodies (program : Program) : List (List Stmt) :=
  program.functions.map Function.body ++ [program.main]

def values (program : Program) : List Expr :=
  program.bodies.flatMap Stmt.valuesAll

def conditions (program : Program) : List Expr :=
  program.bodies.flatMap Stmt.conditionsAll

end Program

end FlatCode
