import FlatCode.Program.Basic
import FlatCode.Stmt.Parser
import FlatCode.Token.Stream

/-!
# Reading programs

A program is a sequence of function definitions followed by the main statements
and the end of the input.

* A function name must not be the name of a function above or of a builtin; this
  is checked when the name is read.
* The parameters of a function must differ; this is checked at each parameter.
* A body in which no statement returns gets a return without a result behind it.
* The label of a function is created after its body is read, so a body can call
  only the functions above it.
-/

namespace FlatCode

open Token (Ending Parsed Stream accept expect)

namespace Function

/-- The name of a new function, if it is not taken yet. -/
def checkName (functions : List Function) (name : Token) :
    Except Diagnostic String :=
  if functions.any (fun function => function.name == name.payload) ||
      (Callable.builtin? name.payload).isSome then
    .error ((Fault.redefinedFunction name.payload).reportAt name.position)
  else
    .ok name.payload

/-- The name of a new parameter, if it is not taken yet. -/
def checkParam (params : List String) (param : Token) :
    Except Diagnostic String :=
  if params.contains param.payload then
    .error ((Fault.redefinedParameter param.payload).reportAt param.position)
  else
    .ok param.payload

/-- Read one or more parameters, where `params` are those read before. -/
def parseParams
    (ending : Ending) (params : List String) (tokens : List Token) :
    Except Diagnostic (Parsed (List String) tokens.length) := do
  let token ← expect ending .identifier tokens
  let param ← checkParam params token.value
  match ← accept ending .comma token.rest with
  | none => .ok (token.map fun _ => params ++ [param])
  | some comma =>
      let all ← parseParams ending (params ++ [param]) comma.rest
      .ok (token.andThen (comma.andThen all))
termination_by tokens.length
decreasing_by
  have := token.rest_length_lt
  have := comma.rest_length_lt
  omega

/-- Read a parameter list, which may be empty, with its parentheses. -/
def parseSignature (ending : Ending) (tokens : List Token) :
    Except Diagnostic (Parsed (List String) tokens.length) := do
  let opening ← expect ending .lparen tokens
  match ← accept ending .rparen opening.rest with
  | some close => .ok (opening.andThen (close.map fun _ => []))
  | none =>
      let params ← parseParams ending [] opening.rest
      let close ← expect ending .rparen params.rest
      .ok (opening.andThen (params.andThen (close.map fun _ => params.value)))

/-- Close a body in which no statement returns. -/
def closeBody (name : String) (body : List Stmt) : List Stmt :=
  if body.any Stmt.returns then body else body ++ [.ret name none]

/-- Read a function behind the word `def`, where `functions` are the functions
above it. -/
def parse
    (ending : Ending) (functions : List Function) (created : Nat)
    (tokens : List Token) :
    Except Diagnostic (Parsed (Stmt.Numbered Function) tokens.length) := do
  let word ← expect ending .identifier tokens
  let name ← checkName functions word.value
  let params ← parseSignature ending word.rest
  let opening ← expect ending .lbrace params.rest
  let scope : Stmt.Scope :=
    ⟨⟨ending, functions.map callee⟩, some name, none⟩
  let body ← Stmt.parseMany scope created opening.rest
  let close ← expect ending .rbrace body.rest
  let function : Function :=
    ⟨name, params.value, ⟨body.value.2⟩, closeBody name body.value.1⟩
  .ok
    (word.andThen
      (params.andThen
        (opening.andThen
          (body.maybeThen
            (close.map fun _ => (function, body.value.2 + 1))))))

end Function

namespace Program

/-- Read function definitions as long as the next token starts one, where
`functions` are those read before. -/
def parseFunctions
    (ending : Ending) (functions : List Function) (created : Nat)
    (tokens : List Token) :
    Except Diagnostic
      (Parsed (Stmt.Numbered (List Function)) (tokens.length + 1)) := do
  match ← accept ending .kwDef tokens with
  | none => .ok (.stay (functions, created) tokens)
  | some word =>
      let function ← Function.parse ending functions created word.rest
      let all ←
        parseFunctions ending (functions ++ [function.value.1])
          function.value.2 function.rest
      .ok (word.andThen (function.andMaybe all)).weaken
termination_by tokens.length
decreasing_by
  have := word.rest_length_lt
  have := function.rest_length_lt
  omega

/-- Read a whole program from its token stream. -/
def ofStream (stream : Stream) : Except Diagnostic Program := do
  let functions ← parseFunctions stream.ending [] 0 stream.tokens
  let scope : Stmt.Scope :=
    ⟨⟨stream.ending, functions.value.1.map Function.callee⟩, none, none⟩
  let main ← Stmt.parseMany scope functions.value.2 functions.rest
  Token.expectEnd stream.ending main.rest
  .ok
    ⟨functions.value.1, main.value.1, LabelTable.empty.createMany main.value.2⟩

def parse (source : String) : Except Diagnostic Program :=
  ofStream (Stream.ofString source)

end Program

end FlatCode
