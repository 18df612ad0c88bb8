/-!
# Kinds of tokens

A token is of one of four classes:

* the open classes, whose spelling varies: identifiers, numbers and raw
  instructions;
* the keywords;
* the operators and punctuation marks;
* the end of the input.

Keywords and operators have a fixed spelling, given by the two tables
`keywords` and `operators`.  In the operator table the spellings of two
characters stand before those of one character, so that the first entry that
fits is the longest one.
-/

namespace FlatCode.Token

/-- What a token is, apart from its text and its place. -/
inductive Kind where
  | identifier
  | number
  | raw
  | eof
  | kwDef
  | kwIf
  | kwElse
  | kwWhile
  | kwBreak
  | kwContinue
  | kwReturn
  | lparen
  | rparen
  | lbracket
  | rbracket
  | lbrace
  | rbrace
  | comma
  | semicolon
  | assign
  | logicalAnd
  | logicalOr
  | logicalNot
  | bitAnd
  | bitOr
  | bitXor
  | bitNot
  | eq
  | ne
  | lt
  | gt
  | le
  | ge
  | shl
  | shr
  | plus
  | minus
  | star
  | slash
  | percent
  | slashSlash
  | starStar
  deriving DecidableEq, Repr

def keywords : List (String × Kind) :=
  [("def", .kwDef), ("if", .kwIf), ("else", .kwElse), ("while", .kwWhile),
    ("break", .kwBreak), ("continue", .kwContinue), ("return", .kwReturn)]

/-- The operators and punctuation marks, the longer spellings first. -/
def operators : List (String × Kind) :=
  [("&&", .logicalAnd), ("||", .logicalOr), ("==", .eq), ("!=", .ne),
    ("<=", .le), (">=", .ge), ("<<", .shl), (">>", .shr),
    ("//", .slashSlash), ("**", .starStar),
    ("(", .lparen), (")", .rparen), ("[", .lbracket), ("]", .rbracket),
    ("\x7b", .lbrace), ("\x7d", .rbrace), (",", .comma), (";", .semicolon),
    ("=", .assign), ("!", .logicalNot), ("&", .bitAnd), ("|", .bitOr),
    ("^", .bitXor), ("~", .bitNot), ("<", .lt), (">", .gt),
    ("+", .plus), ("-", .minus), ("*", .star), ("/", .slash),
    ("%", .percent)]

def keyword? (word : String) : Option Kind :=
  (keywords.find? fun entry => entry.1 == word).map Prod.snd

namespace Kind

/-- The fixed spelling of a keyword or operator. -/
def lexeme? (kind : Kind) : Option String :=
  ((keywords ++ operators).find? fun entry => entry.2 == kind).map Prod.fst

/-- How a message names the kind: fixed spellings stand between quotes. -/
def describe (kind : Kind) : String :=
  match kind.lexeme? with
  | some text => "\"" ++ text ++ "\""
  | none =>
      match kind with
      | .identifier => "identifier"
      | .number => "number"
      | .raw => "raw instruction"
      | _ => "end of input"

end Kind

end FlatCode.Token
