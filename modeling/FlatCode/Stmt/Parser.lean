import FlatCode.Expr.Parser
import FlatCode.Stmt.Basic

/-!
# Reading statements

A statement is chosen by its first token.  One semicolon is taken behind an
assignment, a return and a jump if it comes next, and an empty statement is a
semicolon by itself.  An `else` belongs to the nearest `if` that can take it.

Labels are numbered while statements are read: a loop takes two numbers, for its
home and its exit, before its condition and its body are read.

A `return` needs a function around it, and a `break` or `continue` a loop around
it; the fault is reported at that word, before anything behind it is looked at.
-/

namespace FlatCode.Stmt

open Token (Parsed accept expect)

structure LoopLabels where
  home : Label
  exit : Label
  deriving DecidableEq, Repr

/-- Where a statement stands: what its expressions are read against, the
function around it and the innermost loop around it. -/
structure Scope where
  expressions : Expr.Context
  function : Option String
  loop : Option LoopLabels

namespace Scope

def ending (scope : Scope) : Token.Ending :=
  scope.expressions.ending

end Scope

/-- A result of reading, with the number of labels created up to then. -/
abbrev Numbered (α : Type) :=
  α × Nat

def startsStatement : Token.Kind → Bool
  | .identifier | .kwIf | .kwWhile | .kwReturn | .kwBreak | .kwContinue
  | .semicolon | .raw | .lbrace => true
  | _ => false

def startsResult : Token.Kind → Bool
  | .minus | .bitNot | .logicalNot | .identifier | .lparen | .number => true
  | _ => false

def skipSemicolon
    {α : Type} {limit : Nat} (scope : Scope) (parsed : Parsed α limit) :
    Except Diagnostic (Parsed α limit) := do
  match ← accept scope.ending .semicolon parsed.rest with
  | none => .ok parsed
  | some semicolon =>
      .ok (parsed.andThen (semicolon.map fun _ => parsed.value))

/-- Read an expression whose value is stored or passed on. -/
def parseValue (scope : Scope) (tokens : List Token) :
    Except Diagnostic (Parsed Expr tokens.length) := do
  let value ← Expr.parse scope.expressions tokens
  .ok (value.map Expr.normalize)

def parseCondition (scope : Scope) (tokens : List Token) :
    Except Diagnostic (Parsed Expr tokens.length) := do
  let opening ← expect scope.ending .lparen tokens
  let condition ← Expr.parse scope.expressions opening.rest
  let close ← expect scope.ending .rparen condition.rest
  .ok
    (opening.andThen
      (condition.andThen (close.map fun _ => condition.value)))

def parseAssigned (scope : Scope) (tokens : List Token) :
    Except Diagnostic (Parsed Expr tokens.length) := do
  let sign ← expect scope.ending .assign tokens
  let value ← parseValue scope sign.rest
  .ok (sign.andThen value)

def parseAssignment
    (scope : Scope) (target : String) (tokens : List Token) :
    Except Diagnostic (Parsed Stmt tokens.length) := do
  match ← accept scope.ending .lbracket tokens with
  | none =>
      let value ← parseAssigned scope tokens
      .ok (value.map (.assign target))
  | some opening =>
      let index ← parseValue scope opening.rest
      let close ← expect scope.ending .rbracket index.rest
      let value ← parseAssigned scope close.rest
      .ok
        (opening.andThen
          (index.andThen
            (close.andThen (value.map (.store target index.value)))))

def parseReturn
    (scope : Scope) (word : Token) (tokens : List Token) :
    Except Diagnostic (Parsed Stmt (tokens.length + 1)) :=
  match scope.function with
  | none => .error (Fault.unexpectedReturn.reportAt word.position)
  | some function => do
      let next ← Token.peek scope.ending tokens
      if startsResult next.kind then
        let value ← parseValue scope tokens
        .ok (value.map fun result => .ret function (some result)).weaken
      else
        .ok (.stay (.ret function none) tokens)

/-- The labels of the loop that a `break` or `continue` acts on. -/
def enclosingLoop (scope : Scope) (word : Token) :
    Except Diagnostic LoopLabels :=
  match scope.loop with
  | none => .error (Fault.unexpectedLoopControl.reportAt word.position)
  | some labels => .ok labels

mutual

/-- Read one statement, with `created` labels in use already. -/
def parse
    (scope : Scope) (created : Nat) (tokens : List Token) :
    Except Diagnostic (Parsed (Numbered Stmt) tokens.length) :=
  match tokens with
  | [] => do
      let last ← scope.ending
      .error (Fault.expectedStatement.reportAt last.position)
  | token :: rest =>
      match token.kind with
      | .identifier => do
          let stmt ← parseAssignment scope token.payload rest
          let ended ← skipSemicolon scope stmt
          .ok (ended.map (·, created)).weaken
      | .kwIf => do
          let condition ← parseCondition scope rest
          let thenBranch ← parse scope created condition.rest
          match ← accept scope.ending .kwElse thenBranch.rest with
          | none =>
              .ok
                (condition.andThen
                  (thenBranch.map fun (first, after) =>
                    (.ifThen condition.value first, after))).weaken
          | some word =>
              let elseBranch ← parse scope thenBranch.value.2 word.rest
              .ok
                (condition.andThen
                  (thenBranch.andThen
                    (word.andThen
                      (elseBranch.map fun (second, after) =>
                        (.ifElse condition.value thenBranch.value.1 second,
                          after))))).weaken
      | .kwWhile => do
          let labels : LoopLabels := ⟨⟨created⟩, ⟨created + 1⟩⟩
          let condition ← parseCondition scope rest
          let body ←
            parse { scope with loop := some labels } (created + 2)
              condition.rest
          .ok
            (condition.andThen
              (body.map fun (repeated, after) =>
                (.loop labels.home labels.exit condition.value repeated,
                  after))).weaken
      | .kwReturn => do
          let stmt ← parseReturn scope token rest
          let ended ← skipSemicolon scope stmt
          .ok (ended.map (·, created))
      | .kwBreak => do
          let labels ← enclosingLoop scope token
          skipSemicolon scope (.stay (.jump labels.exit, created) rest)
      | .kwContinue => do
          let labels ← enclosingLoop scope token
          skipSemicolon scope (.stay (.jump labels.home, created) rest)
      | .raw => .ok (.stay (.raw token.payload, created) rest)
      | .lbrace => do
          let body ← parseMany scope created rest
          let close ← expect scope.ending .rbrace body.rest
          .ok
            (body.andThen
              (close.map fun _ => (.block body.value.1, body.value.2)))
      | .semicolon => .ok (.stay (.empty, created) rest)
      | _ => .error (Fault.expectedStatement.reportAt token.position)
termination_by tokens.length * 2
decreasing_by
  · have := condition.rest_length_lt
    simp only [List.length_cons]
    omega
  · have := condition.rest_length_lt
    have := thenBranch.rest_length_lt
    have := word.rest_length_lt
    simp only [List.length_cons]
    omega
  · have := condition.rest_length_lt
    simp only [List.length_cons]
    omega
  · simp only [List.length_cons]
    omega

/-- Read statements as long as the next token starts one. -/
def parseMany
    (scope : Scope) (created : Nat) (tokens : List Token) :
    Except Diagnostic (Parsed (Numbered (List Stmt)) (tokens.length + 1)) := do
  let next ← Token.peek scope.ending tokens
  if startsStatement next.kind then
    let first ← parse scope created tokens
    let others ← parseMany scope first.value.2 first.rest
    .ok
      (first.andMaybe
        (others.map fun (stmts, after) =>
          (first.value.1 :: stmts, after))).weaken
  else
    .ok (.stay ([], created) tokens)
termination_by tokens.length * 2 + 1
decreasing_by
  · omega
  · have := first.rest_length_lt
    omega

end

end FlatCode.Stmt
