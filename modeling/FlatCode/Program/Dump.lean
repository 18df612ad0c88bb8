import FlatCode.Program.Basic
import FlatCode.Text.Quoted
import FlatCode.Text.Tree

/-!
# Tree dumps of programs

The tree of a program as indented text, for reading by people.  Every node shows
its form and its parts; a statement also shows whether it returns, and an
expression its two notes on truth.  Texts are quoted, and `escaped` tells which of
their characters are given by their code points.
-/

namespace FlatCode

open Text (Tree)

namespace Text.Tree

def ofBool (value : Bool) : Tree :=
  .leaf (if value then "true" else "false")

def ofNat (value : Nat) : Tree :=
  .leaf (toString value)

def ofString (escaped : Char → Bool) (text : String) : Tree :=
  .leaf (quote escaped text)

end Text.Tree

namespace Label

def toTree (label : Label) : Tree :=
  .tuple "Label" [.ofNat label.number]

end Label

namespace LabelTable

def toTree (table : LabelTable) : Tree :=
  .record "Labels"
    [("addresses",
        .list
          (table.addresses.toList.map fun address =>
            .option (address.map .ofNat))),
      ("last_placed", .option (table.lastPlaced.map .ofNat))]

end LabelTable

namespace Operator

def name : Operator → String
  | .add => "Add"
  | .sub => "Sub"
  | .mul => "Mul"
  | .div => "Div"
  | .intDiv => "IntDiv"
  | .mod => "Mod"
  | .pow => "Pow"
  | .shl => "Shl"
  | .shr => "Shr"
  | .and => "And"
  | .or => "Or"
  | .xor => "Xor"
  | .not => "Not"
  | .logicalAnd => "LogicalAnd"
  | .equal => "Equal"
  | .notEqual => "NotEqual"
  | .lessThan => "LessThan"
  | .lessThanEq => "LessThanEq"
  | .greaterThan => "GreaterThan"
  | .greaterThanEq => "GreaterThanEq"
  | .abs => "Abs"
  | .sin => "Sin"
  | .cos => "Cos"
  | .tan => "Tan"
  | .floor => "Floor"
  | .ceil => "Ceil"
  | .sqrt => "Sqrt"
  | .log10 => "Log10"
  | .log => "Log"
  | .rand => "Rand"
  | .max => "Max"
  | .min => "Min"
  | .atan2 => "Atan2"
  | .dst => "Dst"
  | .noise => "Noise"

end Operator

namespace Callee

def toTree (escaped : Char → Bool) (callee : Callee) : Tree :=
  .record "Callee"
    [("name", .ofString escaped callee.name),
      ("params", .list (callee.params.map (.ofString escaped))),
      ("home", callee.home.toTree)]

end Callee

namespace Expr

/-- The tree of an expression around the tree of its form. -/
def treeOfForm (truth : Truth) (form : Tree) : Tree :=
  .record "Expr"
    [("kind", form),
      ("type_is_bool", .ofBool truth.wanted),
      ("value_is_bool", .ofBool truth.strict)]

mutual

def toTree (escaped : Char → Bool) : Expr → Tree
  | .atom truth text =>
      treeOfForm truth (.tuple "Atom" [.ofString escaped text])
  | .binary truth operator lhs rhs =>
      treeOfForm truth
        (.record "Operation"
          [("op", .leaf operator.name), ("lhs", lhs.toTree escaped),
            ("rhs", rhs.toTree escaped)])
  | .call truth callee args =>
      treeOfForm truth
        (.record "Call"
          [("callee", callee.toTree escaped),
            ("args", .list (toTrees escaped args))])
  | .load truth cell index =>
      treeOfForm truth
        (.record "MemoryLoad"
          [("cell", .ofString escaped cell), ("index", index.toTree escaped)])

def toTrees (escaped : Char → Bool) : List Expr → List Tree
  | [] => []
  | first :: others => first.toTree escaped :: toTrees escaped others

end

end Expr

namespace Stmt

/-- The tree of a statement around the tree of its form. -/
def treeOfForm (returns : Bool) (form : Tree) : Tree :=
  .record "Stmt" [("kind", form), ("returns", .ofBool returns)]

/-- The tree of an assignment to a variable or to a memory cell. -/
def treeOfAssignment
    (escaped : Char → Bool) (target : String) (index : Option Expr)
    (value : Expr) : Tree :=
  .record "Assign"
    [("target", .ofString escaped target),
      ("index", .option (index.map (Expr.toTree escaped))),
      ("value", value.toTree escaped)]

/-- The tree of a choice with one branch or with two. -/
def treeOfChoice
    (escaped : Char → Bool) (condition : Expr) (thenBranch : Tree)
    (elseBranch : Option Tree) : Tree :=
  .record "Cond"
    [("condition", condition.toTree escaped), ("then_branch", thenBranch),
      ("else_branch", .option elseBranch)]

mutual

def toTree (escaped : Char → Bool) (stmt : Stmt) : Tree :=
  treeOfForm stmt.returns
    (match stmt with
    | .assign target value => treeOfAssignment escaped target none value
    | .store cell index value =>
        treeOfAssignment escaped cell (some index) value
    | .ifThen condition thenBranch =>
        treeOfChoice escaped condition (thenBranch.toTree escaped) none
    | .ifElse condition thenBranch elseBranch =>
        treeOfChoice escaped condition (thenBranch.toTree escaped)
          (some (elseBranch.toTree escaped))
    | .loop home exit condition body =>
        .record "Loop"
          [("home", home.toTree), ("end", exit.toTree),
            ("condition", condition.toTree escaped),
            ("body", body.toTree escaped)]
    | .ret function value =>
        .record "Return"
          [("function", .ofString escaped function),
            ("value", .option (value.map (Expr.toTree escaped)))]
    | .jump target => .tuple "Jump" [target.toTree]
    | .raw text => .tuple "Raw" [.ofString escaped text]
    | .block body => .tuple "Compound" [.list (toTrees escaped body)]
    | .empty => .leaf "Empty")

def toTrees (escaped : Char → Bool) : List Stmt → List Tree
  | [] => []
  | first :: others => first.toTree escaped :: toTrees escaped others

end

end Stmt

namespace Function

def toTree (escaped : Char → Bool) (function : Function) : Tree :=
  .record "Function"
    [("name", .ofString escaped function.name),
      ("params", .list (function.params.map (.ofString escaped))),
      ("home", function.home.toTree),
      ("body", .list (Stmt.toTrees escaped function.body))]

end Function

namespace Program

def toTree (escaped : Char → Bool) (program : Program) : Tree :=
  .record "Program"
    [("functions", .list (program.functions.map (Function.toTree escaped))),
      ("main", .list (Stmt.toTrees escaped program.main)),
      ("labels", program.labels.toTree)]

/-- The tree of a program as text, closed by a line feed. -/
def dump
    (program : Program) (escaped : Char → Bool := Text.isEscaped) : String :=
  (program.toTree escaped).render 0 ++ "\n"

end Program

end FlatCode
