import FlatCode.Diagnostic
import FlatCode.Text.Line
import FlatCode.Token.Lexer

/-!
# The token stream of a text

All tokens that a text offers before its first broken line, together with what
stands behind them: the end of the input when no line is broken, and the report
of the first broken line otherwise.
-/

namespace FlatCode.Token

/-- A token sequence and what is met behind it. -/
structure Stream where
  tokens : List Token
  ending : Except Diagnostic Token

namespace Stream

/-- The stream of the given lines, of which `line` lines have gone before. -/
def ofLines (line : Nat) : List (List Char) → Stream
  | [] => ⟨[], .ok (endOfInput ⟨line + 1, 1⟩)⟩
  | text :: later =>
      match lexLine (line + 1) text with
      | ⟨_, some column⟩ =>
          ⟨[], .error (Fault.invalidToken.reportAt ⟨line + 1, column⟩)⟩
      | ⟨tokens, none⟩ =>
          let stream := ofLines (line + 1) later
          ⟨tokens ++ stream.tokens, stream.ending⟩

def ofString (text : String) : Stream :=
  ofLines 0 (Text.lines text.toList)

/-- All tokens up to the end of the input, which is the last of them. -/
def toList (stream : Stream) : Except Diagnostic (List Token) :=
  stream.ending.map fun last => stream.tokens ++ [last]

end Stream

/-- The tokens of a text with the end of the input as the last one, or the
report of its first broken line. -/
def tokenize (text : String) : Except Diagnostic (List Token) :=
  (Stream.ofString text).toList

end FlatCode.Token
