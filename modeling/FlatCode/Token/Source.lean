import FlatCode.Diagnostic
import FlatCode.Text.Line
import FlatCode.Token.Lexer

/-!
# Reading tokens on demand

A `Source` hands out the tokens of a text one by one and takes a further line
only when no token is waiting.  So a broken line is reported when it is
reached, not before.

* A broken line is reported once; afterwards its tokens before the broken
  column are handed out, and the rest of that line is lost.
* After the last of `n` lines stands the end of the input, at line `n + 1` and
  column one, any number of times.
-/

namespace FlatCode.Token

/-- The tokens that wait to be read, the lines that have not been looked at,
and the number of lines that have. -/
structure Source where
  pending : List Token
  unread : List (List Char)
  line : Nat
  deriving DecidableEq, Repr

namespace Source

def ofString (text : String) : Source :=
  ⟨[], Text.lines text.toList, 0⟩

/-- Take lines up to the first one that holds a token or is broken.  The answer
is the token that comes first, or the report of the broken line. -/
def takeLines (line : Nat) :
    List (List Char) → Except Diagnostic Token × Source
  | [] =>
      let token := endOfInput ⟨line + 1, 1⟩
      (.ok token, ⟨[token], [], line⟩)
  | text :: unread =>
      match lexLine (line + 1) text with
      | ⟨tokens, some column⟩ =>
          (.error (Fault.invalidToken.reportAt ⟨line + 1, column⟩),
            ⟨tokens, unread, line + 1⟩)
      | ⟨[], none⟩ => takeLines (line + 1) unread
      | ⟨token :: tokens, none⟩ =>
          (.ok token, ⟨token :: tokens, unread, line + 1⟩)

def peek (source : Source) : Except Diagnostic Token × Source :=
  match source.pending with
  | token :: _ => (.ok token, source)
  | [] => takeLines source.line source.unread

def peekKind (source : Source) : Except Diagnostic Kind × Source :=
  let (answer, after) := source.peek
  (answer.map Token.kind, after)

/-- Remove the next token.  A report leaves the source where it is, so that
reading can go on behind it. -/
def read (source : Source) : Except Diagnostic Token × Source :=
  match source.peek with
  | (.ok token, after) => (.ok token, { after with pending := after.pending.tail })
  | (.error diagnostic, after) => (.error diagnostic, after)

end Source

end FlatCode.Token
