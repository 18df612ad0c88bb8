import FlatCode.Lowering.Stmt
import FlatCode.Program.Parser

/-!
# Listings

Code with labels is assembled from its first entry to its last: instructions get
the addresses `0, 1, 2, …`, and a placed label gets the address of the next
instruction.  If the label placed last stands behind the last instruction, an
instruction that does nothing is added for it.

Then every label must have an address, and the listing is the text of the
instructions in order.  `compile` joins reading a program and listing its code.
-/

namespace FlatCode

/-- The labels and the instructions of the entries assembled so far. -/
structure Assembly where
  labels : LabelTable
  code : Array Instruction
  deriving DecidableEq, Repr

namespace Assembly

def step (assembly : Assembly) : Entry → Except LabelFault Assembly
  | .create => .ok { assembly with labels := assembly.labels.create }
  | .place label => do
      let labels ← assembly.labels.place label assembly.code.size
      .ok { assembly with labels := labels }
  | .emit instruction =>
      .ok { assembly with code := assembly.code.push instruction }

/-- Assemble entries, starting from a table of labels and no instruction. -/
def ofEntries (labels : LabelTable) (entries : List Entry) :
    Except LabelFault Assembly :=
  entries.foldlM step ⟨labels, #[]⟩

/-- Whether the label placed last has no instruction to stand for. -/
def needsGuard (assembly : Assembly) : Bool :=
  assembly.labels.lastPlaced = some assembly.code.size

/-- Add an instruction for a label behind the last one. -/
def guarded (assembly : Assembly) : Assembly :=
  if assembly.needsGuard then
    { assembly with code := assembly.code.push .noop }
  else
    assembly

/-- The text of the instructions, once all labels have an address. -/
def listing (assembly : Assembly) : Except LabelFault (List String) :=
  if assembly.labels.placed = assembly.labels.created then
    assembly.code.toList.mapM (Instruction.render assembly.labels)
  else
    .error .incomplete

end Assembly

namespace Program

def assemble (program : Program) : Except LabelFault Assembly := do
  let assembly ← Assembly.ofEntries program.labels program.lower
  .ok assembly.guarded

def generate (program : Program) : Except LabelFault (List String) := do
  let assembly ← program.assemble
  assembly.listing

end Program

/-- Why a source text has no listing. -/
inductive Failure where
  /-- The text is not a program. -/
  | rejected (diagnostic : Diagnostic)
  /-- The program misuses its labels. -/
  | misplaced (fault : LabelFault)
  deriving DecidableEq, Repr

/-- The listing of a source text, one line for each instruction. -/
def compile (source : String) : Except Failure String := do
  let program ← (Program.parse source).mapError .rejected
  let code ← program.generate.mapError .misplaced
  .ok (Text.unlines code)

end FlatCode
