import FlatCode.Expr.Basic
import FlatCode.Token.Parsed

/-!
# Runs of unary operators

The unary operators in front of an operand are folded while they are read, so
that at most one of two equal neighbours remains:

* a plus sign is dropped;
* two minus signs, or two tildes, cancel;
* two exclamation marks become one test for truth, and a third one makes it a
  test for falsity again.

A run is kept as a list with the operator nearest to the operand in front, which
is the one that is applied first.
-/

namespace FlatCode

/-- An operation on one value, in front of its operand. -/
inductive Unary where
  /-- The value with the opposite sign. -/
  | negate
  /-- The value with all bits flipped. -/
  | flipBits
  /-- Whether the value is zero. -/
  | isFalse
  /-- Whether the value is not zero. -/
  | isTrue
  deriving DecidableEq, Repr

namespace Unary

/-- Add an operator to a run, next to the operand. -/
def push (run : List Unary) (added : Unary) : List Unary :=
  match run, added with
  | .isFalse :: outer, .isFalse => .isTrue :: outer
  | .isTrue :: outer, .isFalse => .isFalse :: outer
  | last :: outer, added =>
      if last = added then outer else added :: last :: outer
  | [], added => [added]

def apply (unary : Unary) (operand : Expr) : Expr :=
  match unary with
  | .negate => .combine .sub (some false) true .zero operand
  | .flipBits => .combine .not (some false) true operand .zero
  | .isFalse =>
      (Expr.combine .equal (some true) false operand .zero).wantTruth
  | .isTrue =>
      (Expr.combine .notEqual (some true) false operand .zero).wantTruth

/-- Apply a run to an operand, the operator next to it first. -/
def applyAll (run : List Unary) (operand : Expr) : Expr :=
  run.foldl (fun expr unary => unary.apply expr) operand

/-- The effect of one token on a run, if it is a unary operator. -/
def extend? (run : List Unary) : Token.Kind → Option (List Unary)
  | .plus => some run
  | .minus => some (push run .negate)
  | .bitNot => some (push run .flipBits)
  | .logicalNot => some (push run .isFalse)
  | _ => none

/-- Read the unary operators at the front of a token list, where `run` holds
those read before. -/
def readRun (run : List Unary) :
    (tokens : List Token) → Token.Parsed (List Unary) (tokens.length + 1)
  | [] => .stay run []
  | token :: rest =>
      match extend? run token.kind with
      | some longer => (readRun longer rest).weaken
      | none => .stay run (token :: rest)

end Unary

end FlatCode
