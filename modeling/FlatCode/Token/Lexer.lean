import FlatCode.Text.Blank
import FlatCode.Token.Basic

/-!
# Tokens of one line

At a character that is not blank, the lexeme is chosen by the first rule that
applies:

* an operator of the table, the longest one that fits;
* a number: digits with at most one point among them, which may come first or
  last;
* a word: a letter, an underscore or an at sign, followed by letters, digits
  and underscores; it is a keyword or an identifier;
* a dollar sign, which takes the rest of the line as a raw instruction;
* a hash sign, which makes the rest of the line a comment.

Letters and digits are those of ASCII.  Where no rule applies the line is
broken: the tokens before that character are kept, and its column is recorded.
-/

namespace FlatCode.Token

def isWordChar (character : Char) : Bool :=
  character.isAlphanum || character == '_'

def startsWord (character : Char) : Bool :=
  character.isAlpha || character == '_' || character == '@'

def startsNumber (character : Char) : Bool :=
  character.isDigit || character == '.'

/-- How many characters of a text continue a number, where `pointSeen` tells
whether the number has its point already. -/
def numberLength (pointSeen : Bool) : List Char → Nat
  | [] => 0
  | character :: rest =>
      if character.isDigit then
        numberLength pointSeen rest + 1
      else if character == '.' && !pointSeen then
        numberLength true rest + 1
      else
        0

def wordLength (text : List Char) : Nat :=
  (text.takeWhile isWordChar).length

/-- The first operator of the table that a text starts with. -/
def operatorAt? (text : List Char) : Option (String × Kind) :=
  operators.find? fun entry => entry.1.toList.isPrefixOf text

/-- What starts at a character that is not blank. -/
inductive Lexeme where
  /-- A token that takes `extra` characters after its first one. -/
  | token (kind : Kind) (text : Option String) (extra : Nat)
  /-- A comment, up to the end of the line. -/
  | comment
  /-- No lexeme. -/
  | invalid
  deriving DecidableEq, Repr

namespace Lexeme

/-- The token of a word: a keyword without text, or an identifier. -/
def ofWord (word : String) (extra : Nat) : Lexeme :=
  match keyword? word with
  | some kind => .token kind none extra
  | none => .token .identifier (some word) extra

/-- The lexeme that starts at `first` when `rest` is the rest of the line. -/
def munch (first : Char) (rest : List Char) : Lexeme :=
  match operatorAt? (first :: rest) with
  | some (text, kind) => .token kind none (text.length - 1)
  | none =>
      if startsNumber first then
        let extra := numberLength (first == '.') rest
        .token .number (some (String.ofList (first :: rest.take extra))) extra
      else if startsWord first then
        let extra := wordLength rest
        ofWord (String.ofList (first :: rest.take extra)) extra
      else if first == '$' then
        .token .raw (some (String.ofList (Text.trim rest))) rest.length
      else if first == '#' then
        .comment
      else
        .invalid

end Lexeme

/-- The tokens of one line.  In a broken line these are the tokens before the
character that starts no lexeme, and `invalid` is the column of that
character. -/
structure LexedLine where
  tokens : List Token
  invalid : Option Nat
  deriving DecidableEq, Repr

namespace LexedLine

def push (token : Token) (line : LexedLine) : LexedLine :=
  ⟨token :: line.tokens, line.invalid⟩

end LexedLine

/-- The tokens of the part of line `line` that starts at column `column`. -/
def lexFrom (line column : Nat) : List Char → LexedLine
  | [] => ⟨[], none⟩
  | first :: rest =>
      if Text.isBlank first then
        lexFrom line (column + 1) rest
      else
        match Lexeme.munch first rest with
        | .token kind text extra =>
            (lexFrom line (column + 1 + extra) (rest.drop extra)).push
              ⟨kind, text, ⟨line, column⟩⟩
        | .comment => ⟨[], none⟩
        | .invalid => ⟨[], some column⟩
termination_by text => text.length
decreasing_by
  · simp
  · simp only [List.length_drop, List.length_cons]
    omega

def lexLine (line : Nat) (text : List Char) : LexedLine :=
  lexFrom line 1 text

end FlatCode.Token
