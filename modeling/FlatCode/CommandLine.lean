import FlatCode.Listing
import FlatCode.Program.Dump

/-!
# The command line

The program is run with one source file and any number of switches, in any
order.  Words that start with two hyphens are switches; the switches `--tokens`
and `--ast`, in this order of priority, ask for the tokens or for the tree of
the source instead of its listing, and other switches have no effect.  The file
`-` is the standard input.

A run prints the text asked for and exits with zero, or prints one line on the
error channel and exits with one.  In the texts of a tree, the characters that are
`escaped` are given by their code points.
-/

namespace FlatCode.CommandLine

inductive Mode where
  | tokens
  | tree
  | listing
  deriving DecidableEq, Repr

/-- Where a source text comes from. -/
inductive Input where
  | standardInput
  | file (path : String)
  deriving DecidableEq, Repr

/-- A run with one source. -/
structure Request where
  mode : Mode
  input : Input
  deriving DecidableEq, Repr

/-- What a run leaves behind. -/
structure Outcome where
  exit : Nat
  stdout : String
  stderr : String
  deriving DecidableEq, Repr

namespace Outcome

def success (text : String) : Outcome :=
  ⟨0, text, ""⟩

def failure (line : String) : Outcome :=
  ⟨1, "", line ++ "\n"⟩

/-- A run that is broken off because labels were misused. -/
def broken (fault : LabelFault) : Outcome :=
  ⟨101, "", fault.message ++ "\n"⟩

/-- A run that prints a text or reports a diagnostic. -/
def ofExcept (answer : Except Diagnostic String) : Outcome :=
  match answer with
  | .ok text => success text
  | .error diagnostic => failure diagnostic.render

end Outcome

/-- Words that start with two hyphens. -/
def isSwitch (word : String) : Bool :=
  "--".toList.isPrefixOf word.toList

def Mode.ofWords (words : List String) : Mode :=
  if words.contains "--tokens" then
    .tokens
  else if words.contains "--ast" then
    .tree
  else
    .listing

def Input.ofWord (word : String) : Input :=
  if word = "-" then .standardInput else .file word

/-- The run that a command asks for, if it names exactly one source.  The name
of the program counts as a word of the command when switches are looked for. -/
def Request.ofWords? (program : String) (args : List String) : Option Request :=
  match args.filter fun word => !isSwitch word with
  | [word] => some ⟨Mode.ofWords (program :: args), Input.ofWord word⟩
  | _ => none

/-- The line that a token takes in a list of tokens. -/
def tokenLine (token : Token) : String :=
  toString token.position.line ++ ":" ++ toString token.position.column
    ++ "\t" ++ token.describe

def Mode.run
    (mode : Mode) (source : String)
    (escaped : Char → Bool := Text.isEscaped) : Outcome :=
  match mode with
  | .tokens =>
      .ofExcept
        ((Token.tokenize source).map fun tokens =>
          Text.unlines (tokens.map tokenLine))
  | .tree =>
      .ofExcept ((Program.parse source).map fun program => program.dump escaped)
  | .listing =>
      match compile source with
      | .ok text => .success text
      | .error (.rejected diagnostic) => .failure diagnostic.render
      | .error (.misplaced fault) => .broken fault

def usage (program : String) : Outcome :=
  .failure ("Usage: " ++ program ++ " source_file")

/-- Answer a request, given the bytes of its source if they can be read.  Bytes
that are no text count as unreadable. -/
def Request.run
    (request : Request) (content : Option ByteArray)
    (escaped : Char → Bool := Text.isEscaped) : Outcome :=
  match content.bind String.fromUTF8? with
  | some source => request.mode.run source escaped
  | none => .failure "Failed to open source file."

structure Surroundings where
  stdin : ByteArray
  file? : String → Option ByteArray

namespace Surroundings

def content? (surroundings : Surroundings) : Input → Option ByteArray
  | .standardInput => some surroundings.stdin
  | .file path => surroundings.file? path

end Surroundings

def run
    (surroundings : Surroundings) (program : String) (args : List String)
    (escaped : Char → Bool := Text.isEscaped) : Outcome :=
  match Request.ofWords? program args with
  | none => usage program
  | some request => request.run (surroundings.content? request.input) escaped

end FlatCode.CommandLine
