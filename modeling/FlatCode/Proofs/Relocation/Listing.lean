import FlatCode.Proofs.Encoding.Instruction
import FlatCode.Proofs.Placement
import FlatCode.Proofs.Relocation.Stmt

/-!
# Listings under relocation

A listing consists of lines, which are raw texts or instructions, and of the guard
behind them where there is one.  In a line a jump names an address, so relocating a
line raises the address and the numbers of its temporaries by given amounts.

Code that stands in an assembly behind other code has its old lines, relocated by
the number of instructions in front of it.  The guard stands behind the second part
if that part has one, or if it has no instruction and the first part has one.
-/

namespace FlatCode

open Entry

/-! ## Lines -/

inductive Line where
  /-- A text that is taken as it is. -/
  | raw (text : String)
  /-- An instruction. -/
  | coded (resolved : Resolved)
  deriving DecidableEq, Repr

/-- Raise the address of a jump, and the numbers of the temporaries of an
instruction. -/
def Resolved.relocate (offset amount : Nat) : Resolved → Resolved
  | .set target value => .set (target.shift amount) (value.shift amount)
  | .op operator target lhs rhs =>
      .op operator (target.shift amount) (lhs.shift amount) (rhs.shift amount)
  | .jump address condition =>
      .jump (address + offset) (condition.shift amount)
  | .read target cell index =>
      .read (target.shift amount) (cell.shift amount) (index.shift amount)
  | .write value cell index =>
      .write (value.shift amount) (cell.shift amount) (index.shift amount)
  | .halt => .halt
  | .noop => .noop

namespace Line

def render : Line → String
  | .raw text => text
  | .coded resolved => " ".intercalate resolved.words

/-- Relocate the instruction of a line.  A raw text stays as it is. -/
def relocate (offset amount : Nat) : Line → Line
  | .raw text => .raw text
  | .coded resolved => .coded (resolved.relocate offset amount)

end Line

/-- The line of an instruction, once labels have addresses. -/
def Instruction.line? (labels : LabelTable) : Instruction → Option Line
  | .raw text => some (.raw text)
  | instruction => (instruction.resolve? labels).map .coded

namespace Instruction

variable {labels : LabelTable} {instruction : Instruction}

theorem exists_render_of_resolve?
    {resolved : Resolved} (meant : instruction.resolve? labels = some resolved) :
    ∃ text, instruction.render labels = .ok text := by
  cases instruction with
  | raw text =>
      cases meant
  | jump target condition =>
      obtain ⟨address, placed, _⟩ := Option.map_eq_some_iff.mp meant
      rw [render, placed]
      exact ⟨_, rfl⟩
  | set | op | read | write | halt | noop =>
      exact ⟨_, rfl⟩

theorem line?_cases
    {line : Line} (found : instruction.line? labels = some line) :
    (∃ text, instruction = .raw text ∧ line = .raw text) ∨
      ∃ resolved,
        instruction.resolve? labels = some resolved ∧
          line = .coded resolved := by
  unfold line? at found
  split at found
  · next text =>
      cases found
      exact Or.inl ⟨text, rfl, rfl⟩
  · obtain ⟨resolved, meant, rfl⟩ := Option.map_eq_some_iff.mp found
    exact Or.inr ⟨resolved, meant, rfl⟩

theorem render_of_line?
    {line : Line} (found : instruction.line? labels = some line) :
    instruction.render labels = .ok line.render := by
  rcases line?_cases found with ⟨text, rfl, rfl⟩ | ⟨resolved, meant, rfl⟩
  · rfl
  · obtain ⟨text, rendered⟩ := exists_render_of_resolve? meant
    rcases render_cases rendered with rfl | ⟨other, otherMeant, rfl⟩
    · cases meant
    · cases meant.symm.trans otherMeant
      exact rendered

variable {other : LabelTable} {rename : Label → Label} {offset : Nat}

/-- A relocated instruction has a relocated line if the label that it jumps to has
moved by the offset. -/
theorem line?_relocate
    (instruction : Instruction) (amount : Nat)
    (moved : ∀ target condition, instruction = .jump target condition →
      ∃ address,
        labels.address? target = some address ∧
          other.address? (rename target) = some (address + offset)) :
    ∃ line,
      instruction.line? labels = some line ∧
        (instruction.relocate rename amount).line? other =
          some (line.relocate offset amount) := by
  cases instruction with
  | jump target condition =>
      obtain ⟨address, here, there⟩ := moved target condition rfl
      refine ⟨.coded (.jump address condition), ?_, ?_⟩
      · simp [line?, resolve?, here]
      · simp [line?, resolve?, there, Line.relocate, Resolved.relocate]
  | set | op | read | write | raw | halt | noop =>
      exact ⟨_, rfl, rfl⟩

end Instruction

theorem mapM_line?_relocate
    {labels other : LabelTable} {rename : Label → Label} {offset : Nat}
    (amount : Nat) {code : List Instruction}
    (moved : ∀ target condition, .jump target condition ∈ code →
      ∃ address,
        labels.address? target = some address ∧
          other.address? (rename target) = some (address + offset)) :
    ∃ lines,
      lines.length = code.length ∧
        code.mapM (Instruction.line? labels) = some lines ∧
        (code.map (Instruction.relocate rename amount)).mapM
            (Instruction.line? other) =
          some (lines.map (Line.relocate offset amount)) := by
  induction code with
  | nil =>
      exact ⟨[], rfl, rfl, rfl⟩
  | cons instruction rest inductionHypothesis =>
      obtain ⟨line, here, there⟩ :=
        instruction.line?_relocate amount fun target condition same =>
          moved target condition (same ▸ List.mem_cons_self)
      obtain ⟨lines, sameLength, restHere, restThere⟩ :=
        inductionHypothesis fun target condition member =>
          moved target condition (List.mem_cons_of_mem _ member)
      refine ⟨line :: lines, by simp [sameLength], ?_, ?_⟩
      · simp [here, restHere]
      · simp [there, restThere]

theorem Operand.shift_zero (operand : Operand) : operand.shift 0 = operand := by
  cases operand <;> rfl

/-- A line that is not moved stays as it is. -/
theorem Line.relocate_zero : Line.relocate 0 0 = id := by
  funext line
  cases line with
  | raw text =>
      rfl
  | coded resolved =>
      cases resolved with
      | jump address condition =>
          cases condition <;>
            simp [relocate, Resolved.relocate, Condition.shift,
              Operand.shift_zero]
      | set | op | read | write | halt | noop =>
          simp [relocate, Resolved.relocate, Operand.shift_zero]

/-! ## Listings -/

/-- The lines of a listing in front of its guard, and whether it has one. -/
structure Listing where
  lines : List Line
  guarded : Bool
  deriving DecidableEq, Repr

def Listing.render (listing : Listing) : String :=
  Text.unlines
    (listing.lines.map Line.render ++ if listing.guarded then ["noop"] else [])

namespace Assembly

/-- The listing of an assembly to which no guard was added yet, if all its jumps
have addresses. -/
def listing? (assembly : Assembly) : Option Listing :=
  (assembly.code.toList.mapM (Instruction.line? assembly.labels)).map
    fun lines => ⟨lines, assembly.needsGuard⟩

/-- An assembly holds given entries and nothing else, and its jumps go to labels
that the entries place. -/
structure Holds (assembly : Assembly) (entries : List Entry) : Prop where
  code : assembly.code.toList = instructions entries
  carries : assembly.Carries 0 entries
  known : ∀ label address, assembly.labels.address? label = some address →
    label ∈ placed entries
  ordered : assembly.Ordered
  aims : ∀ target condition, .jump target condition ∈ instructions entries →
    target ∈ placed entries

variable {before after : Assembly}

theorem address_of_run
    {entries : List Entry}
    (assembled : entries.foldlM step before = .ok after)
    {label : Label} {address : Nat}
    (found : after.labels.address? label = some address) :
    before.labels.address? label = some address ∨
      label ∈ Entry.placed entries := by
  induction entries generalizing before with
  | nil =>
      cases assembled
      exact Or.inl found
  | cons entry rest inductionHypothesis =>
      rw [List.foldlM_cons] at assembled
      obtain ⟨middle, first, others⟩ := bind_eq_ok_iff.mp assembled
      have later := inductionHypothesis others
      cases entry with
      | create =>
          rw [step_create first] at later
          simpa using later
      | emit instruction =>
          rw [step_emit first] at later
          exact later
      | place other =>
          obtain ⟨labels, success, rfl⟩ := step_place first
          by_cases same : label = other
          · exact Or.inr (same ▸ List.mem_cons_self)
          · rw [LabelTable.address?_place_of_ne success same] at later
            exact later.imp_right (List.mem_cons_of_mem _)

theorem moved_of_carries
    {first second : Assembly} {rename : Label → Label} {amount start offset : Nat}
    {entries : List Entry} (carries : first.Carries start entries)
    (moved :
      second.Carries (start + offset)
        (entries.map (Entry.relocate rename amount)))
    {label : Label} (member : label ∈ Entry.placed entries) :
    ∃ address,
      first.labels.address? label = some address ∧
        second.labels.address? (rename label) = some (address + offset) := by
  induction entries generalizing start with
  | nil =>
      cases member
  | cons entry rest inductionHypothesis =>
      cases entry with
      | create =>
          exact inductionHypothesis carries moved member
      | place other =>
          rcases List.mem_cons.mp member with rfl | later
          · exact ⟨start, carries.1, moved.1⟩
          · exact inductionHypothesis carries.2 moved.2 later
      | emit instruction =>
          have next := moved.2
          rw [Nat.add_right_comm] at next
          exact inductionHypothesis carries.2 next member

/-- Assembling entries from a table without addresses gives an assembly that holds
them. -/
theorem holds_of_ofEntries
    {labels : LabelTable} {entries : List Entry} {assembly : Assembly}
    (assembled : ofEntries labels entries = .ok assembly)
    (fresh : ∀ label, labels.address? label = none)
    (ordered : assembly.Ordered)
    (aims : ∀ target condition, .jump target condition ∈ instructions entries →
      target ∈ Entry.placed entries) :
    assembly.Holds entries where
  code := by simp [code_of_run assembled]
  carries := carries_of_run assembled
  known label address found := by
    rcases address_of_run assembled found with early | later
    · rw [fresh] at early
      cases early
    · exact later
  ordered := ordered
  aims := aims

end Assembly

section Relocated

variable (rename : Label → Label) (amount : Nat) (entries : List Entry)

theorem instructions_relocate :
    instructions (entries.map (Entry.relocate rename amount)) =
      (instructions entries).map (Instruction.relocate rename amount) := by
  induction entries with
  | nil =>
      rfl
  | cons entry rest inductionHypothesis =>
      cases entry <;> simp [inductionHypothesis]

theorem placed_relocate :
    placed (entries.map (Entry.relocate rename amount)) =
      (placed entries).map rename := by
  induction entries with
  | nil =>
      rfl
  | cons entry rest inductionHypothesis =>
      cases entry <;> simp [inductionHypothesis]

theorem width_relocate :
    width (entries.map (Entry.relocate rename amount)) = width entries := by
  rw [width, instructions_relocate, List.length_map, width]

end Relocated

namespace Assembly.Holds

variable {first second whole : Assembly}
  {firstEntries secondEntries : List Entry}
  {firstRename secondRename : Label → Label} {amount : Nat}

theorem size (holds : first.Holds firstEntries) :
    first.code.size = width firstEntries := by
  rw [← Array.length_toList, holds.code, width]

theorem needsGuard_iff (holds : first.Holds firstEntries) :
    first.needsGuard = true ↔
      ∃ label ∈ placed firstEntries,
        first.labels.address? label = some (width firstEntries) := by
  rw [Assembly.needsGuard_iff holds.ordered, holds.size]
  constructor
  · rintro ⟨label, found⟩
    exact ⟨label, holds.known label _ found, found⟩
  · rintro ⟨label, _, found⟩
    exact ⟨label, found⟩

theorem address_le
    (holds : first.Holds firstEntries) {label : Label} {address : Nat}
    (found : first.labels.address? label = some address) :
    address ≤ width firstEntries := by
  obtain ⟨last, recorded, bound⟩ := holds.ordered.greatest label address found
  have limit := holds.ordered.bounded last recorded
  rw [holds.size] at limit
  exact Nat.le_trans bound limit

variable (firstHolds : first.Holds firstEntries)
  (secondHolds : second.Holds secondEntries)
  (wholeHolds :
    whole.Holds
      (firstEntries.map (Entry.relocate firstRename 0) ++
        secondEntries.map (Entry.relocate secondRename amount)))

include firstHolds wholeHolds in
theorem moved_first
    {label : Label} (member : label ∈ placed firstEntries) :
    ∃ address,
      first.labels.address? label = some address ∧
        whole.labels.address? (firstRename label) = some (address + 0) :=
  moved_of_carries firstHolds.carries
    (Assembly.carries_append.mp wholeHolds.carries).1 member

include secondHolds wholeHolds in
theorem moved_second
    {label : Label} (member : label ∈ placed secondEntries) :
    ∃ address,
      second.labels.address? label = some address ∧
        whole.labels.address? (secondRename label) =
          some (address + width firstEntries) := by
  have carries := (Assembly.carries_append.mp wholeHolds.carries).2
  rw [width_relocate] at carries
  exact moved_of_carries secondHolds.carries carries member

include firstHolds secondHolds wholeHolds

/-- The guard belongs to the second part, or to the first part if nothing stands
behind it. -/
theorem needsGuard_append :
    whole.needsGuard = true ↔
      second.needsGuard = true ∨
        width secondEntries = 0 ∧ first.needsGuard = true := by
  rw [wholeHolds.needsGuard_iff, firstHolds.needsGuard_iff,
    secondHolds.needsGuard_iff]
  simp only [width_append, width_relocate, placed_append, placed_relocate]
  constructor
  · rintro ⟨label, member, found⟩
    rcases List.mem_append.mp member with early | late
    · -- a label of the first part is at the end only if nothing stands behind it
      obtain ⟨original, inside, rfl⟩ := List.mem_map.mp early
      obtain ⟨address, here, there⟩ :=
        moved_first firstHolds wholeHolds inside
      have bound := firstHolds.address_le here
      rw [there, Option.some_inj] at found
      refine Or.inr ⟨by omega, original, inside, ?_⟩
      rw [here, Option.some_inj]
      omega
    · obtain ⟨original, inside, rfl⟩ := List.mem_map.mp late
      obtain ⟨address, here, there⟩ :=
        moved_second secondHolds wholeHolds inside
      rw [there, Option.some_inj] at found
      refine Or.inl ⟨original, inside, ?_⟩
      rw [here, Option.some_inj]
      omega
  · rintro (⟨label, inside, found⟩ | ⟨empty, label, inside, found⟩)
    · obtain ⟨address, here, there⟩ :=
        moved_second secondHolds wholeHolds inside
      rw [here, Option.some_inj] at found
      refine
        ⟨secondRename label,
          List.mem_append_right _ (List.mem_map_of_mem inside), ?_⟩
      rw [there, found, Nat.add_comm]
    · obtain ⟨address, here, there⟩ :=
        moved_first firstHolds wholeHolds inside
      rw [here, Option.some_inj] at found
      refine
        ⟨firstRename label,
          List.mem_append_left _ (List.mem_map_of_mem inside), ?_⟩
      rw [there, found, empty]

/-- Code behind other code has its old lines, relocated. -/
theorem listing?_append :
    ∃ firstListing secondListing,
      first.listing? = some firstListing ∧
        second.listing? = some secondListing ∧
        whole.listing? =
          some
            ⟨firstListing.lines ++
                secondListing.lines.map
                  (Line.relocate firstListing.lines.length amount),
              secondListing.guarded ||
                (secondListing.lines.isEmpty && firstListing.guarded)⟩ := by
  obtain ⟨firstLines, firstLength, firstHere, firstThere⟩ :=
    mapM_line?_relocate 0 fun target condition member =>
      moved_first firstHolds wholeHolds
        (firstHolds.aims target condition member)
  obtain ⟨secondLines, secondLength, secondHere, secondThere⟩ :=
    mapM_line?_relocate amount fun target condition member =>
      moved_second secondHolds wholeHolds
        (secondHolds.aims target condition member)
  have unmoved : firstLines.map (Line.relocate 0 0) = firstLines := by
    rw [Line.relocate_zero, List.map_id]
  have guard :
      whole.needsGuard =
        (second.needsGuard || (secondLines.isEmpty && first.needsGuard)) := by
    have empty : secondLines.isEmpty = true ↔ width secondEntries = 0 := by
      rw [List.isEmpty_iff_length_eq_zero, secondLength, width]
    rw [Bool.eq_iff_iff, needsGuard_append firstHolds secondHolds wholeHolds,
      Bool.or_eq_true, Bool.and_eq_true, empty]
  refine
    ⟨⟨firstLines, first.needsGuard⟩, ⟨secondLines, second.needsGuard⟩, ?_, ?_,
      ?_⟩
  · rw [listing?, firstHolds.code, firstHere]
    rfl
  · rw [listing?, secondHolds.code, secondHere]
    rfl
  · rw [listing?, wholeHolds.code, instructions_append, instructions_relocate,
      instructions_relocate, List.mapM_append, firstThere, secondThere,
      unmoved, guard, firstLength]
    rfl

end Assembly.Holds

/-! ## Listings of programs -/

theorem mapM_render_of_line?
    {labels : LabelTable} {code : List Instruction} {lines : List Line}
    (found : code.mapM (Instruction.line? labels) = some lines) :
    code.mapM (Instruction.render labels) = .ok (lines.map Line.render) := by
  induction code generalizing lines with
  | nil =>
      cases found
      rfl
  | cons instruction rest inductionHypothesis =>
      rw [List.mapM_cons] at found
      obtain ⟨line, here, found⟩ := Option.bind_eq_some_iff.mp found
      obtain ⟨others, later, found⟩ := Option.bind_eq_some_iff.mp found
      cases found
      rw [List.mapM_cons, Instruction.render_of_line? here,
        inductionHypothesis later]
      rfl

theorem Assembly.toList_guarded (assembly : Assembly) :
    assembly.guarded.code.toList =
      assembly.code.toList ++
        if assembly.needsGuard then [.noop] else [] := by
  unfold Assembly.guarded
  split <;> simp

theorem Assembly.lines_of_listing?
    {assembly : Assembly} {listing : Listing} {texts : List String}
    (listed : assembly.listing? = some listing)
    (written : assembly.guarded.listing = .ok texts) :
    Text.unlines texts = listing.render := by
  obtain ⟨lines, found, rfl⟩ := Option.map_eq_some_iff.mp listed
  have rendered := mapM_render_of_line? found
  rw [Assembly.listing, labels_guarded] at written
  split at written
  · rw [toList_guarded, List.mapM_append, rendered] at written
    cases guard : assembly.needsGuard with
    | false =>
        rw [guard] at written
        cases written
        simp [Listing.render]
    | true =>
        rw [guard] at written
        cases written
        simp [Listing.render]
  · cases written

namespace Program

variable {source : String} {program : Program} {emitted : Assembly}

def listing? (program : Program) : Option Listing :=
  (Assembly.ofEntries program.labels program.lower).toOption.bind
    Assembly.listing?

theorem holds_of_parse
    (read : parse source = .ok program)
    (assembled :
      Assembly.ofEntries program.labels program.lower = .ok emitted) :
    emitted.Holds program.lower := by
  have formed := wellFormed_of_parse read
  refine
    Assembly.holds_of_ofEntries assembled ?_ (ordered_emitted formed assembled)
      ?_
  · intro label
    simp [formed.labels]
  · intro target condition member
    have inside : .jump target condition ∈ emitted.code := by
      rw [Assembly.code_of_run assembled]
      simpa using member
    exact Instruction.known_of_aims (aims_code formed assembled _ inside)

/-- A source text is read as a program and compiled to a listing. -/
structure Compiles
    (source : String) (program : Program) (listing : Listing) : Prop where
  read : parse source = .ok program
  listed : program.listing? = some listing
  compiled : compile source = .ok listing.render

theorem compiles_of_listing?
    {listing : Listing} (read : parse source = .ok program)
    (assembled :
      Assembly.ofEntries program.labels program.lower = .ok emitted)
    (listed : emitted.listing? = some listing) :
    Compiles source program listing := by
  obtain ⟨other, texts, otherAssembled, written, _, compiled⟩ :=
    exists_compile_of_parse read
  cases assembled.symm.trans otherAssembled
  refine ⟨read, ?_, ?_⟩
  · rw [listing?, assembled]
    exact listed
  · rw [compiled, Assembly.lines_of_listing? listed written]

end Program

end FlatCode
