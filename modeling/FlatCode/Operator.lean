/-!
# Operators of the target machine

The operations of the target's `op` instruction: arithmetic, bit operations,
comparisons and the builtin mathematical functions.  The six comparisons come
in three pairs of complements; no other operator has a complement.
-/

namespace FlatCode

/-- An operation on two values; a function of one value ignores the second. -/
inductive Operator where
  | add
  | sub
  | mul
  | div
  | intDiv
  | mod
  | pow
  | shl
  | shr
  | and
  | or
  | xor
  | not
  | logicalAnd
  | equal
  | notEqual
  | lessThan
  | lessThanEq
  | greaterThan
  | greaterThanEq
  | abs
  | sin
  | cos
  | tan
  | floor
  | ceil
  | sqrt
  | log10
  | log
  | rand
  | max
  | min
  | atan2
  | dst
  | noise
  deriving DecidableEq, Repr

namespace Operator

def mnemonic : Operator → String
  | .add => "add"
  | .sub => "sub"
  | .mul => "mul"
  | .div => "div"
  | .intDiv => "idiv"
  | .mod => "mod"
  | .pow => "pow"
  | .shl => "shl"
  | .shr => "shr"
  | .and => "and"
  | .or => "or"
  | .xor => "xor"
  | .not => "not"
  | .logicalAnd => "land"
  | .equal => "equal"
  | .notEqual => "notEqual"
  | .lessThan => "lessThan"
  | .lessThanEq => "lessThanEq"
  | .greaterThan => "greaterThan"
  | .greaterThanEq => "greaterThanEq"
  | .abs => "abs"
  | .sin => "sin"
  | .cos => "cos"
  | .tan => "tan"
  | .floor => "floor"
  | .ceil => "ceil"
  | .sqrt => "sqrt"
  | .log10 => "log10"
  | .log => "log"
  | .rand => "rand"
  | .max => "max"
  | .min => "min"
  | .atan2 => "atan2"
  | .dst => "dst"
  | .noise => "noise"

/-- The comparison that holds exactly when the given one does not. -/
def complement? : Operator → Option Operator
  | .equal => some .notEqual
  | .notEqual => some .equal
  | .lessThan => some .greaterThanEq
  | .lessThanEq => some .greaterThan
  | .greaterThan => some .lessThanEq
  | .greaterThanEq => some .lessThan
  | _ => none

def isComparison (operator : Operator) : Bool :=
  operator.complement?.isSome

end Operator

end FlatCode
