/-!
# Trees as indented text

A tree is written over several lines.  Its parts are

* leaves, which stand on one line as they are;
* labelled trees, with the label and a colon in front;
* groups between an opening and a closing mark: an empty group stands on one
  line, and in any other group each member stands on lines of its own, four
  spaces deeper, with a comma behind it.
-/

namespace FlatCode.Text

/-- A tree to be written as indented text. -/
inductive Tree where
  | leaf (text : String)
  | labelled (label : String) (tree : Tree)
  | group (opening closing : String) (members : List Tree)
  deriving Repr

namespace Tree

def indentation (depth : Nat) : String :=
  String.join (List.replicate depth "    ")

mutual

/-- Write a tree whose first line starts at the given depth. -/
def render (depth : Nat) : Tree → String
  | .leaf text => text
  | .labelled label tree => label ++ ": " ++ tree.render depth
  | .group opening closing [] => opening ++ closing
  | .group opening closing (first :: others) =>
      opening ++ "\n" ++ renderMembers (depth + 1) (first :: others)
        ++ indentation depth ++ closing

/-- Write the members of a group at their depth, each with its comma. -/
def renderMembers (depth : Nat) : List Tree → String
  | [] => ""
  | first :: others =>
      indentation depth ++ first.render depth ++ ",\n"
        ++ renderMembers depth others

end

def list (members : List Tree) : Tree :=
  .group "[" "]" members

def record (name : String) (fields : List (String × Tree)) : Tree :=
  .group (name ++ " \x7b") "\x7d"
    (fields.map fun field => .labelled field.1 field.2)

def tuple (name : String) (members : List Tree) : Tree :=
  .group (name ++ "(") ")" members

def option : Option Tree → Tree
  | none => .leaf "None"
  | some tree => tuple "Some" [tree]

end Tree

end FlatCode.Text
