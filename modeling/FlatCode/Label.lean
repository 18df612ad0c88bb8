/-!
# Labels

A label stands for the address of an instruction that may not be known yet.
Labels are numbered in the order of their creation, and a `LabelTable` records
for each of them the address at which it was placed.

The table is write-once: placing a label that was never created, or a label
that has an address already, is a fault and leaves no new table.
-/

namespace FlatCode

/-- A label, known by its number. -/
structure Label where
  number : Nat
  deriving DecidableEq, Repr

/-- The ways in which labels can be misused. -/
inductive LabelFault where
  /-- A label is placed that was never created. -/
  | unknown (label : Label)
  /-- A label is placed a second time. -/
  | placedTwice (label : Label)
  /-- A label is left without an address at the end. -/
  | incomplete
  /-- A jump names a label without an address. -/
  | neverPlaced (label : Label)
  deriving DecidableEq, Repr

namespace LabelFault

def message : LabelFault → String
  | .unknown label =>
      "label " ++ toString label.number ++ " was never created"
  | .placedTwice label =>
      "label " ++ toString label.number ++ " placed twice"
  | .incomplete => "every label must be placed exactly once"
  | .neverPlaced label =>
      "jump to label " ++ toString label.number ++ " which was never placed"

end LabelFault

/-- The address of every created label, where it has one, and the address that
was recorded last. -/
structure LabelTable where
  addresses : Array (Option Nat)
  lastPlaced : Option Nat
  deriving DecidableEq, Repr

namespace LabelTable

def empty : LabelTable :=
  ⟨#[], none⟩

/-- The number of labels created so far, which is the number of the next
one. -/
def created (table : LabelTable) : Nat :=
  table.addresses.size

def placed (table : LabelTable) : Nat :=
  table.addresses.countP Option.isSome

/-- The label that `create` adds to a table. -/
def next (table : LabelTable) : Label :=
  ⟨table.created⟩

/-- Add the label `next`, without an address. -/
def create (table : LabelTable) : LabelTable :=
  { table with addresses := table.addresses.push none }

def createMany (table : LabelTable) (count : Nat) : LabelTable :=
  { table with addresses := table.addresses ++ Array.replicate count none }

/-- The address of a label, if it was created and placed. -/
def address? (table : LabelTable) (label : Label) : Option Nat :=
  (table.addresses[label.number]?).join

/-- Record the address of a label that was created and has none. -/
def place
    (table : LabelTable) (label : Label) (address : Nat) :
    Except LabelFault LabelTable :=
  match table.addresses[label.number]? with
  | none => .error (.unknown label)
  | some (some _) => .error (.placedTwice label)
  | some none =>
      .ok
        { addresses := table.addresses.setIfInBounds label.number (some address)
          lastPlaced := some address }

def placeMany
    (table : LabelTable) (places : List (Label × Nat)) :
    Except LabelFault LabelTable :=
  places.foldlM (fun current place => current.place place.1 place.2) table

end LabelTable

end FlatCode
