import FlatCode.Label
import FlatCode.Operator

/-!
# Expressions

Every value of the target machine is a number, and a truth value is the number
zero or one.  An expression therefore carries two notes on how its value relates
to truth:

* `wanted`: the source reads the value as a truth value, so it has to be zero or
  one wherever it is stored or computed with;
* `strict`: the value is zero or one already.

An expression that is wanted and not strict is *loose*.  `normalize` compares a
loose expression with zero and leaves every other expression as it is.
-/

namespace FlatCode

/-- How the value of an expression relates to the truth values zero and one. -/
structure Truth where
  wanted : Bool
  strict : Bool
  deriving DecidableEq, Repr

namespace Truth

/-- A number that nobody reads as a truth value. -/
def plain : Truth :=
  ⟨false, false⟩

/-- A truth value is wanted, and the value is not known to be one. -/
def loose (truth : Truth) : Bool :=
  truth.wanted && !truth.strict

end Truth

/-- What a call needs to know of the called function: its name, its parameters
and the label of its first instruction. -/
structure Callee where
  name : String
  params : List String
  home : Label
  deriving DecidableEq, Repr

/-- An expression over variables, literals, memory cells and functions. -/
inductive Expr where
  /-- A variable or a literal, used as it is written. -/
  | atom (truth : Truth) (text : String)
  /-- An operation on two values. -/
  | binary (truth : Truth) (operator : Operator) (lhs rhs : Expr)
  /-- A call of a function of the program. -/
  | call (truth : Truth) (callee : Callee) (args : List Expr)
  /-- The content of a memory cell at an index. -/
  | load (truth : Truth) (cell : String) (index : Expr)
  deriving Repr

namespace Expr

@[simp]
def truth : Expr → Truth
  | .atom truth _ => truth
  | .binary truth _ _ _ => truth
  | .call truth _ _ => truth
  | .load truth _ _ => truth

@[simp]
def withTruth (truth : Truth) : Expr → Expr
  | .atom _ text => .atom truth text
  | .binary _ operator lhs rhs => .binary truth operator lhs rhs
  | .call _ callee args => .call truth callee args
  | .load _ cell index => .load truth cell index

/-- A variable or a literal. -/
def ofText (text : String) : Expr :=
  .atom .plain text

def zero : Expr :=
  .atom ⟨true, true⟩ "0"

def ofCall (callee : Callee) (args : List Expr) : Expr :=
  .call .plain callee args

def ofLoad (cell : String) (index : Expr) : Expr :=
  .load .plain cell index

/-- Note that the value is read as a truth value. -/
def wantTruth (expr : Expr) : Expr :=
  expr.withTruth { expr.truth with wanted := true }

/-- Turn a loose expression into a strict one by comparing it with zero. -/
def normalize (expr : Expr) : Expr :=
  if expr.truth.loose then
    .binary ⟨false, true⟩ .notEqual expr zero
  else
    expr

/-- Apply an operator to two operands as they are.  The result is strict if
`strict` says so, and without such a word if both operands are. -/
def apply
    (operator : Operator) (strict : Option Bool) (lhs rhs : Expr) : Expr :=
  .binary ⟨false, strict.getD (lhs.truth.strict && rhs.truth.strict)⟩
    operator lhs rhs

/-- Apply an operator to two operands, which are normalized first when
`normalizes` says so. -/
def combine
    (operator : Operator) (strict : Option Bool) (normalizes : Bool)
    (lhs rhs : Expr) : Expr :=
  if normalizes then
    apply operator strict lhs.normalize rhs.normalize
  else
    apply operator strict lhs rhs

/-- The operator of an expression that is a comparison. -/
def comparison? : Expr → Option Operator
  | .binary _ operator _ _ =>
      if operator.isComparison then some operator else none
  | _ => none

/-! ## Equality -/

mutual

def decEq (left right : Expr) : Decidable (left = right) :=
  match left, right with
  | .atom leftTruth leftText, .atom rightTruth rightText =>
      decidable_of_iff
        (leftTruth = rightTruth ∧ leftText = rightText) (by simp)
  | .binary leftTruth leftOperator leftLhs leftRhs,
      .binary rightTruth rightOperator rightLhs rightRhs =>
      have := decEq leftLhs rightLhs
      have := decEq leftRhs rightRhs
      decidable_of_iff
        (leftTruth = rightTruth ∧ leftOperator = rightOperator ∧
          leftLhs = rightLhs ∧ leftRhs = rightRhs) (by simp)
  | .call leftTruth leftCallee leftArgs,
      .call rightTruth rightCallee rightArgs =>
      have := decEqList leftArgs rightArgs
      decidable_of_iff
        (leftTruth = rightTruth ∧ leftCallee = rightCallee ∧
          leftArgs = rightArgs) (by simp)
  | .load leftTruth leftCell leftIndex,
      .load rightTruth rightCell rightIndex =>
      have := decEq leftIndex rightIndex
      decidable_of_iff
        (leftTruth = rightTruth ∧ leftCell = rightCell ∧
          leftIndex = rightIndex) (by simp)
  | .atom .., .binary .. | .atom .., .call .. | .atom .., .load ..
  | .binary .., .atom .. | .binary .., .call .. | .binary .., .load ..
  | .call .., .atom .. | .call .., .binary .. | .call .., .load ..
  | .load .., .atom .. | .load .., .binary .. | .load .., .call .. =>
      isFalse (by simp)

def decEqList (left right : List Expr) : Decidable (left = right) :=
  match left, right with
  | [], [] => isTrue rfl
  | leftHead :: leftTail, rightHead :: rightTail =>
      have := decEq leftHead rightHead
      have := decEqList leftTail rightTail
      decidable_of_iff
        (leftHead = rightHead ∧ leftTail = rightTail) (by simp)
  | [], _ :: _ | _ :: _, [] => isFalse (by simp)

end

instance : DecidableEq Expr := decEq

end Expr

end FlatCode
