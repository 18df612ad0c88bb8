import FlatCode.Expr.Basic

/-!
# What can be called

A name in front of an argument list is a function of the program or one of the
builtin mathematical functions, which take one argument or two.  A builtin
becomes a single operation; with one argument, the second operand is zero.

The functions that leave zero and one as they are give a strict argument back
unchanged.
-/

namespace FlatCode

/-- The target of a call. -/
inductive Callable where
  /-- A function of the program. -/
  | function (callee : Callee)
  /-- A builtin of one argument. -/
  | builtinOne (operator : Operator)
  /-- A builtin of two arguments. -/
  | builtinTwo (operator : Operator)
  deriving DecidableEq, Repr

namespace Callable

def builtins : List (String × Callable) :=
  [("abs", .builtinOne .abs), ("sin", .builtinOne .sin),
    ("cos", .builtinOne .cos), ("tan", .builtinOne .tan),
    ("floor", .builtinOne .floor), ("ceil", .builtinOne .ceil),
    ("sqrt", .builtinOne .sqrt), ("log10", .builtinOne .log10),
    ("log", .builtinOne .log), ("rand", .builtinOne .rand),
    ("max", .builtinTwo .max), ("min", .builtinTwo .min),
    ("atan2", .builtinTwo .atan2), ("dst", .builtinTwo .dst),
    ("noise", .builtinTwo .noise)]

def builtin? (name : String) : Option Callable :=
  (builtins.find? fun entry => entry.1 == name).map Prod.snd

/-- What a name calls when the given functions are in reach. -/
def resolve? (functions : List Callee) (name : String) : Option Callable :=
  match functions.find? fun callee => callee.name == name with
  | some callee => some (.function callee)
  | none => builtin? name

def arity : Callable → Nat
  | .function callee => callee.params.length
  | .builtinOne _ => 1
  | .builtinTwo _ => 2

/-- The builtins that leave zero and one as they are. -/
def keepsTruth : Operator → Bool
  | .abs | .floor | .ceil | .sqrt => true
  | _ => false

/-- The builtins whose result is strict if both operands are. -/
def picksOperand : Operator → Bool
  | .max | .min => true
  | _ => false

/-- The note on strictness that a builtin makes on its result. -/
def strictness (operator : Operator) : Option Bool :=
  if picksOperand operator then none else some false

/-- The call of a target with the given arguments, if their number fits. -/
def call? : Callable → List Expr → Option Expr
  | .function callee, args =>
      if args.length = callee.params.length then
        some (.ofCall callee args)
      else
        none
  | .builtinOne operator, [argument] =>
      if keepsTruth operator && argument.truth.strict then
        some argument
      else
        some (.combine operator (strictness operator) true argument .zero)
  | .builtinTwo operator, [first, second] =>
      some (.combine operator (strictness operator) true first second)
  | _, _ => none

/-- A call succeeds exactly when the number of arguments fits. -/
theorem call?_isSome_iff (callable : Callable) (args : List Expr) :
    (callable.call? args).isSome ↔ args.length = callable.arity := by
  cases callable with
  | function callee =>
      by_cases fits : args.length = callee.params.length <;>
        simp [call?, arity, fits]
  | builtinOne operator =>
      rcases args with _ | ⟨first, _ | ⟨second, rest⟩⟩
      · simp [call?, arity]
      · simp only [call?, arity]
        split <;> simp
      · simp [call?, arity]
  | builtinTwo operator =>
      rcases args with _ | ⟨first, _ | ⟨second, _ | ⟨third, rest⟩⟩⟩ <;>
        simp [call?, arity]

end Callable

end FlatCode
