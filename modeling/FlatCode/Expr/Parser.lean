import FlatCode.Expr.Callable
import FlatCode.Expr.Level
import FlatCode.Expr.Unary
import FlatCode.Token.Parsed

/-!
# Reading expressions

An expression is read level by level:

* at a binary level stand operands of the next tighter level, joined by the
  operators of the level and grouped to the left;
* behind the last level stands a run of unary operators with its operand;
* an operand is a number, a variable, a memory cell with its index, a call, or
  an expression in parentheses.

A call is resolved when its name is read, and its arguments are counted when the
closing parenthesis is read, so each of these faults is reported before anything
behind it.
-/

namespace FlatCode.Expr

open Token (Ending Parsed accept expect)

/-- What an expression is read against: the ending of its token list and the
functions it may call. -/
structure Context where
  ending : Ending
  functions : List Callee

namespace Context

def resolve (context : Context) (name : Token) : Except Diagnostic Callable :=
  match Callable.resolve? context.functions name.payload with
  | some callable => .ok callable
  | none => .error ((Fault.unknownFunction name.payload).reportAt name.position)

end Context

/-- A call whose argument list ends with the token `close`. -/
def finishCall
    (callable : Callable) (args : List Expr) (close : Token) :
    Except Diagnostic Expr :=
  match callable.call? args with
  | some expr => .ok expr
  | none =>
      .error
        ((Fault.wrongArity callable.arity args.length).reportAt close.position)

mutual

/-- Read an expression of the given levels. -/
def parseLevels
    (context : Context) (levels : List Level) (tokens : List Token) :
    Except Diagnostic (Parsed Expr tokens.length) :=
  match levels with
  | [] => do
      let run := Unary.readRun [] tokens
      let operand ← parseOperand context run.rest
      .ok (run.maybeThen (operand.map (Unary.applyAll run.value)))
  | level :: tighter => do
      let first ← parseLevels context tighter tokens
      let whole ←
        parseOperators context level tighter first.value first.rest
      .ok (first.andMaybe whole)
termination_by tokens.length * 16 + levels.length + 2
decreasing_by
  · have := (Unary.readRun [] tokens).rest_length_lt
    simp only [List.length_nil]
    omega
  · simp only [List.length_cons]
    omega
  · have := first.rest_length_lt
    simp only [List.length_cons]
    omega

/-- Read the operators of a level that follow the operand `lhs`, each with its
right operand. -/
def parseOperators
    (context : Context) (level : Level) (tighter : List Level)
    (lhs : Expr) (tokens : List Token) :
    Except Diagnostic (Parsed Expr (tokens.length + 1)) :=
  match tokens with
  | [] => do
      let _ ← context.ending
      .ok (.stay lhs [])
  | token :: rest =>
      match level.operator? token.kind with
      | none => .ok (.stay lhs (token :: rest))
      | some operator => do
          let rhs ← parseLevels context tighter rest
          let whole ←
            parseOperators context level tighter
              (level.combine operator lhs rhs.value) rhs.rest
          .ok (rhs.andMaybe whole).weaken.weaken
termination_by tokens.length * 16 + tighter.length
decreasing_by
  · simp only [List.length_cons]
    omega
  · have := rhs.rest_length_lt
    simp only [List.length_cons]
    omega

def parseOperand
    (context : Context) (tokens : List Token) :
    Except Diagnostic (Parsed Expr tokens.length) :=
  match tokens with
  | [] => do
      let last ← context.ending
      .error (Fault.invalidExpression.reportAt last.position)
  | token :: rest =>
      match token.kind with
      | .lparen => do
          let inner ← parseLevels context Level.table rest
          let close ← expect context.ending .rparen inner.rest
          .ok (inner.andThen (close.map fun _ => inner.value)).weaken
      | .number => .ok (.stay (.ofText token.payload) rest)
      | .identifier => do
          match ← accept context.ending .lparen rest with
          | some opening =>
              let callable ← context.resolve token
              let call ← parseCall context callable opening.rest
              .ok (opening.andThen call).weaken
          | none =>
              match ← accept context.ending .lbracket rest with
              | some opening =>
                  let load ← parseIndex context token.payload opening.rest
                  .ok (opening.andThen load).weaken
              | none => .ok (.stay (.ofText token.payload) rest)
      | _ => .error (Fault.invalidExpression.reportAt token.position)
termination_by tokens.length * 16
decreasing_by
  · simp only [List.length_cons, Level.length_table]
    omega
  · have := opening.rest_length_lt
    simp only [List.length_cons]
    omega
  · have := opening.rest_length_lt
    simp only [List.length_cons]
    omega

/-- Read the index of a memory cell behind its opening bracket, up to and with
the closing one. -/
def parseIndex
    (context : Context) (cell : String) (tokens : List Token) :
    Except Diagnostic (Parsed Expr tokens.length) := do
  let index ← parseLevels context Level.table tokens
  let close ← expect context.ending .rbracket index.rest
  .ok (index.andThen (close.map fun _ => .ofLoad cell index.value.normalize))
termination_by tokens.length * 16 + 15
decreasing_by
  simp only [Level.length_table]
  omega

/-- Read the argument list of a call behind its opening parenthesis, up to and
with the closing one. -/
def parseCall
    (context : Context) (callable : Callable) (tokens : List Token) :
    Except Diagnostic (Parsed Expr tokens.length) := do
  match ← accept context.ending .rparen tokens with
  | some close =>
      let call ← finishCall callable [] close.value
      .ok (close.map fun _ => call)
  | none =>
      let args ← parseArguments context tokens
      let close ← expect context.ending .rparen args.rest
      let call ← finishCall callable args.value close.value
      .ok (args.andThen (close.map fun _ => call))
termination_by tokens.length * 16 + 15

def parseArguments
    (context : Context) (tokens : List Token) :
    Except Diagnostic (Parsed (List Expr) tokens.length) := do
  let first ← parseLevels context Level.table tokens
  match ← accept context.ending .comma first.rest with
  | none => .ok (first.map fun value => [value.normalize])
  | some comma =>
      let others ← parseArguments context comma.rest
      .ok
        (first.andThen
          (comma.andThen (others.map (first.value.normalize :: ·))))
termination_by tokens.length * 16 + 14
decreasing_by
  · simp only [Level.length_table]
    omega
  · have := first.rest_length_lt
    have := comma.rest_length_lt
    omega

end

def parse
    (context : Context) (tokens : List Token) :
    Except Diagnostic (Parsed Expr tokens.length) :=
  parseLevels context Level.table tokens

end FlatCode.Expr
