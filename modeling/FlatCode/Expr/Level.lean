import FlatCode.Expr.Basic
import FlatCode.Token.Kind

/-!
# Binary operators by precedence

The binary operators form eleven levels, all of them associating to the left.
Besides its operators a level fixes three things about its results:

* whether they are strict, or strict exactly when both operands are;
* whether they are read as truth values;
* whether loose operands are normalized first.
-/

namespace FlatCode

/-- Binary operators of one precedence, with what is common to their results. -/
structure Level where
  operators : List (Token.Kind × Operator)
  /-- Whether results are strict; without a word, if both operands are. -/
  strict : Option Bool
  /-- Whether results are read as truth values. -/
  wantsTruth : Bool
  /-- Whether loose operands are normalized. -/
  normalizes : Bool
  deriving DecidableEq, Repr

namespace Level

/-- The operator that a kind of token stands for at a level. -/
def operator? (level : Level) (kind : Token.Kind) : Option Operator :=
  (level.operators.find? fun entry => entry.1 == kind).map Prod.snd

def combine
    (level : Level) (operator : Operator) (lhs rhs : Expr) : Expr :=
  let result :=
    Expr.combine operator level.strict level.normalizes lhs rhs
  if level.wantsTruth then result.wantTruth else result

/-- The levels of the language, those that bind least first. -/
def table : List Level :=
  [{ operators := [(.logicalOr, .or)]
     strict := none, wantsTruth := true, normalizes := false },
    { operators := [(.logicalAnd, .logicalAnd)]
      strict := some true, wantsTruth := true, normalizes := false },
    { operators := [(.bitOr, .or)]
      strict := none, wantsTruth := false, normalizes := true },
    { operators := [(.bitXor, .xor)]
      strict := none, wantsTruth := false, normalizes := true },
    { operators := [(.bitAnd, .and)]
      strict := none, wantsTruth := false, normalizes := true },
    { operators := [(.eq, .equal), (.ne, .notEqual)]
      strict := some true, wantsTruth := true, normalizes := true },
    { operators :=
        [(.lt, .lessThan), (.gt, .greaterThan), (.le, .lessThanEq),
          (.ge, .greaterThanEq)]
      strict := some true, wantsTruth := true, normalizes := true },
    { operators := [(.shl, .shl), (.shr, .shr)]
      strict := some false, wantsTruth := false, normalizes := true },
    { operators := [(.plus, .add), (.minus, .sub)]
      strict := some false, wantsTruth := false, normalizes := true },
    { operators :=
        [(.star, .mul), (.slash, .div), (.percent, .mod),
          (.slashSlash, .intDiv)]
      strict := none, wantsTruth := false, normalizes := true },
    { operators := [(.starStar, .pow)]
      strict := none, wantsTruth := false, normalizes := true }]

@[simp]
theorem length_table : table.length = 11 := rfl

end Level

end FlatCode
