import FlatCode.Stmt.Basic

/-!
# Programs

A program consists of functions, in the order of their definition, and of the
main statements, together with the table of the labels that occur in them.
-/

namespace FlatCode

/-- A function with its parameters and the label of its first instruction. -/
structure Function where
  name : String
  params : List String
  home : Label
  body : List Stmt
  deriving Repr

namespace Function

def callee (function : Function) : Callee :=
  ⟨function.name, function.params, function.home⟩

end Function

/-- The functions, the main statements and the labels of a program. -/
structure Program where
  functions : List Function
  main : List Stmt
  labels : LabelTable
  deriving Repr

namespace Program

/-- The first function of a given name. -/
def function? (program : Program) (name : String) : Option Function :=
  program.functions.find? fun function => function.name == name

end Program

end FlatCode
