import FlatCode.Text.Printable

/-!
# Quoted text

The written form of a text inside a tree dump: the text stands between double
quotes, and

* the quote, the backslash, the tab, the carriage return, the line feed and the
  null character have a two-character escape;
* every other character that is `escaped` is written by its code point in
  lower-case hexadecimal digits without padding;
* all other characters stand for themselves.

Which characters are escaped depends on the version of the Unicode standard, so
it is a parameter, and `isEscaped` is what it stands for by default.
-/

namespace FlatCode.Text

def quoteChar (escaped : Char → Bool) (character : Char) : String :=
  match character with
  | '"' => "\\\""
  | '\\' => "\\\\"
  | '\t' => "\\t"
  | '\r' => "\\r"
  | '\n' => "\\n"
  | '\x00' => "\\0"
  | other =>
      if escaped other then
        "\\u\x7b" ++ String.ofList (Nat.toDigits 16 other.toNat) ++ "\x7d"
      else
        other.toString

/-- The written form of a whole text, with the quotes around it. -/
def quote (escaped : Char → Bool) (text : String) : String :=
  "\"" ++ String.join (text.toList.map (quoteChar escaped)) ++ "\""

/-- An accent, a zero-width space, a soft hyphen, a byte order mark and a private
character, between characters that stand for themselves. -/
example :
    quote isEscaped "e\u0301 \u200b\u00ad\ufeff\ue000é中" =
      "\"e\\u\x7b301\x7d \\u\x7b200b\x7d\\u\x7bad\x7d\\u\x7bfeff\x7d\\u\x7be000\x7dé中\"" := by
  decide +kernel

end FlatCode.Text
