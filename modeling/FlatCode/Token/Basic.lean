import FlatCode.Token.Kind

/-!
# Tokens

A token joins a kind with the text that varies inside that kind and with the
place of its first character.  Identifiers, numbers and raw instructions have a
text; keywords, operators and the end of the input have none.
-/

namespace FlatCode

/-- A place in a source text: line and column, both counted from one, the
column in characters. -/
structure Position where
  line : Nat
  column : Nat
  deriving DecidableEq, Repr

/-- One lexeme with the place where it starts. -/
structure Token where
  kind : Token.Kind
  text : Option String
  position : Position
  deriving DecidableEq, Repr

namespace Token

def endOfInput (position : Position) : Token :=
  ⟨.eof, none, position⟩

/-- The text of a token, empty for a token without one. -/
def payload (token : Token) : String :=
  token.text.getD ""

/-- How a token is listed: open classes by their text, a raw instruction after
its dollar sign, every other token by its fixed spelling. -/
def describe (token : Token) : String :=
  match token.kind with
  | .identifier | .number => token.payload
  | .raw => "$" ++ token.payload
  | .eof => "EOF"
  | kind => kind.lexeme?.getD "?"

end Token

end FlatCode
