import FlatCode.Token.Basic

/-!
# Diagnostics

A source text is rejected at the first fault that is met.  A `Fault` names the
cause, and belongs to one of three stages:

* lexical: no lexeme starts at a character;
* syntax: a token does not fit the grammar;
* semantic: a name, a count or a jump statement does not fit its surroundings.

A `Diagnostic` is what a user sees of a fault: its stage, its wording and its
place.
-/

namespace FlatCode

inductive Stage where
  | lexical
  | syntactic
  | semantic
  deriving DecidableEq, Repr

/-- A rejection with its wording and its place. -/
structure Diagnostic where
  stage : Stage
  message : String
  position : Position
  deriving DecidableEq, Repr

namespace Diagnostic

def render (diagnostic : Diagnostic) : String :=
  "Line " ++ toString diagnostic.position.line ++ " Character "
    ++ toString diagnostic.position.column ++ ": " ++ diagnostic.message

end Diagnostic

/-- The causes for which a source text is rejected. -/
inductive Fault where
  /-- No lexeme starts here. -/
  | invalidToken
  /-- A token of one particular kind had to stand here. -/
  | expected (kind : Token.Kind)
  /-- A statement had to start here. -/
  | expectedStatement
  /-- An operand had to start here. -/
  | invalidExpression
  /-- A `return` outside every function. -/
  | unexpectedReturn
  /-- A `break` or `continue` outside every loop. -/
  | unexpectedLoopControl
  /-- A call of a name that is neither a function above nor a builtin. -/
  | unknownFunction (name : String)
  /-- A call with a number of arguments other than the expected one. -/
  | wrongArity (wanted actual : Nat)
  /-- A function name that is taken already. -/
  | redefinedFunction (name : String)
  /-- A parameter name that is taken already. -/
  | redefinedParameter (name : String)
  deriving DecidableEq, Repr

namespace Fault

def stage : Fault → Stage
  | .invalidToken => .lexical
  | .expected _ => .syntactic
  | .expectedStatement => .syntactic
  | .invalidExpression => .syntactic
  | .unexpectedReturn => .semantic
  | .unexpectedLoopControl => .semantic
  | .unknownFunction _ => .semantic
  | .wrongArity _ _ => .semantic
  | .redefinedFunction _ => .semantic
  | .redefinedParameter _ => .semantic

def message : Fault → String
  | .invalidToken => "Invalid token."
  | .expected kind => "Expected " ++ kind.describe ++ "."
  | .expectedStatement => "Expected statement."
  | .invalidExpression => "Invalid expression."
  | .unexpectedReturn => "Unexpected return."
  | .unexpectedLoopControl => "Unexpected loop control statement."
  | .unknownFunction name => "Unknown function " ++ name ++ "."
  | .wrongArity wanted actual =>
      "Expect " ++ toString wanted ++ " argument"
        ++ (if wanted = 1 then "" else "s")
        ++ ", got " ++ toString actual ++ "."
  | .redefinedFunction name => "Redefinition of function " ++ name ++ "."
  | .redefinedParameter name => "Redefinition of parameter " ++ name ++ "."

def reportAt (fault : Fault) (position : Position) : Diagnostic :=
  ⟨fault.stage, fault.message, position⟩

end Fault

end FlatCode
