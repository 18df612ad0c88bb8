/-!
# Lines of a text

A line ends at a line feed.  One carriage return directly before that line
feed belongs to the line end and not to the line; any other carriage return is
an ordinary character.  A line feed at the very end of a text starts no further
line, so the empty text has no line at all.
-/

namespace FlatCode.Text

/-- Split a text into its lines, without their line ends. -/
def lines : List Char → List (List Char)
  | [] => []
  | '\n' :: rest => [] :: lines rest
  | '\r' :: '\n' :: rest => [] :: lines rest
  | character :: rest =>
      match lines rest with
      | [] => [[character]]
      | line :: later => (character :: line) :: later

/-- Write lines one below the other, each closed by a line feed. -/
def unlines (texts : List String) : String :=
  String.join (texts.map (· ++ "\n"))

@[simp]
theorem lines_nil : lines [] = [] := rfl

@[simp]
theorem lines_lineFeed (rest : List Char) :
    lines ('\n' :: rest) = [] :: lines rest := rfl

end FlatCode.Text
