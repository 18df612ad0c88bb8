/-!
# Blank characters

The characters that separate lexemes without being part of one are the
characters of the `White_Space` property, given here as a table of closed
ranges.  Besides the ASCII blanks they contain

* the next-line control `U+0085` and the no-break space `U+00A0`;
* the typographic spaces `U+1680`, `U+2000`–`U+200A`, `U+202F`, `U+205F` and
  `U+3000`;
* the line and paragraph separators `U+2028` and `U+2029`.

Zero-width characters such as `U+200B` and `U+FEFF`, and the information
separators `U+001C`–`U+001F`, are not blank.
-/

namespace FlatCode.Text

/-- The closed ranges of code points that are blank, in increasing order. -/
def blankRanges : List (Nat × Nat) :=
  [(0x0009, 0x000D), (0x0020, 0x0020), (0x0085, 0x0085), (0x00A0, 0x00A0),
    (0x1680, 0x1680), (0x2000, 0x200A), (0x2028, 0x2029), (0x202F, 0x202F),
    (0x205F, 0x205F), (0x3000, 0x3000)]

def inRanges (ranges : List (Nat × Nat)) (character : Char) : Bool :=
  ranges.any fun range =>
    range.1 ≤ character.toNat && character.toNat ≤ range.2

def isBlank (character : Char) : Bool :=
  inRanges blankRanges character

/-- Remove the blank characters at both ends of a text. -/
def trim (text : List Char) : List Char :=
  ((text.dropWhile isBlank).reverse.dropWhile isBlank).reverse

end FlatCode.Text
