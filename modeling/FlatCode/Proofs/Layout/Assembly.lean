import FlatCode.Listing
import FlatCode.Proofs.Layout.Label
import FlatCode.Proofs.Reading.Token

/-!
# Where assembled entries stand

Three views of a list of entries say all that assembling it depends on: its
instructions, the labels it places and the number of labels it creates.

* Assembling succeeds if every placed label exists by then, none is placed twice
  and none had an address before.
* Afterwards the assembly `Carries` the entries: each instruction stands at its
  address, and each placed label has the address of the next instruction.

Addresses are given out in increasing order, so the label placed last has the
largest address.  This is what the test for the guard relies on.
-/

namespace FlatCode

namespace Entry

def instruction? : Entry → Option Instruction
  | .emit instruction => some instruction
  | .create | .place _ => none

def label? : Entry → Option Label
  | .place label => some label
  | .create | .emit _ => none

def creates : Entry → Bool
  | .create => true
  | .place _ | .emit _ => false

def instructions (entries : List Entry) : List Instruction :=
  entries.filterMap instruction?

def placed (entries : List Entry) : List Label :=
  entries.filterMap label?

def creations (entries : List Entry) : Nat :=
  entries.countP creates

/-- The number of instructions among entries. -/
def width (entries : List Entry) : Nat :=
  (instructions entries).length

section Views

variable (rest first second : List Entry) (label : Label)
  (instruction : Instruction) (code : List Instruction)

@[simp]
theorem instructions_nil : instructions [] = [] := rfl

@[simp]
theorem instructions_create :
    instructions (.create :: rest) = instructions rest := rfl

@[simp]
theorem instructions_place :
    instructions (.place label :: rest) = instructions rest := rfl

@[simp]
theorem instructions_emit :
    instructions (.emit instruction :: rest) =
      instruction :: instructions rest := rfl

@[simp]
theorem instructions_append :
    instructions (first ++ second) =
      instructions first ++ instructions second :=
  List.filterMap_append

@[simp]
theorem instructions_emitAll : instructions (emitAll code) = code := by
  induction code with
  | nil =>
      rfl
  | cons head tail inductionHypothesis =>
      exact congrArg (head :: ·) inductionHypothesis

@[simp]
theorem placed_nil : placed [] = [] := rfl

@[simp]
theorem placed_create : placed (.create :: rest) = placed rest := rfl

@[simp]
theorem placed_place :
    placed (.place label :: rest) = label :: placed rest := rfl

@[simp]
theorem placed_emit : placed (.emit instruction :: rest) = placed rest := rfl

@[simp]
theorem placed_append :
    placed (first ++ second) = placed first ++ placed second :=
  List.filterMap_append

@[simp]
theorem placed_emitAll : placed (emitAll code) = [] := by
  induction code with
  | nil =>
      rfl
  | cons head tail inductionHypothesis =>
      exact inductionHypothesis

@[simp]
theorem creations_nil : creations [] = 0 := rfl

@[simp]
theorem creations_create :
    creations (.create :: rest) = creations rest + 1 :=
  List.countP_cons_of_pos rfl

@[simp]
theorem creations_place :
    creations (.place label :: rest) = creations rest := rfl

@[simp]
theorem creations_emit :
    creations (.emit instruction :: rest) = creations rest := rfl

@[simp]
theorem creations_append :
    creations (first ++ second) = creations first + creations second :=
  List.countP_append

@[simp]
theorem creations_emitAll : creations (emitAll code) = 0 := by
  induction code with
  | nil =>
      rfl
  | cons head tail inductionHypothesis =>
      exact inductionHypothesis

@[simp]
theorem width_nil : width [] = 0 := rfl

@[simp]
theorem width_create : width (.create :: rest) = width rest := rfl

@[simp]
theorem width_place : width (.place label :: rest) = width rest := rfl

@[simp]
theorem width_emit :
    width (.emit instruction :: rest) = width rest + 1 := rfl

@[simp]
theorem width_append :
    width (first ++ second) = width first + width second := by
  simp [width]

@[simp]
theorem width_emitAll : width (emitAll code) = code.length := by
  simp [width]

end Views

/-- Every label that entries place exists by then, where `created` labels exist
before them. -/
def Placeable (created : Nat) : List Entry → Prop
  | [] => True
  | .create :: rest => Placeable (created + 1) rest
  | .place label :: rest => label.number < created ∧ Placeable created rest
  | .emit _ :: rest => Placeable created rest

theorem placeable_append
    {created : Nat} {first second : List Entry} :
    Placeable created (first ++ second) ↔
      Placeable created first ∧
        Placeable (created + creations first) second := by
  induction first generalizing created with
  | nil =>
      simp [Placeable]
  | cons entry rest inductionHypothesis =>
      cases entry with
      | create =>
          simp only [List.cons_append, Placeable, inductionHypothesis,
            creations_create, Nat.add_assoc, Nat.add_comm 1]
      | place label =>
          simp only [List.cons_append, Placeable, inductionHypothesis,
            creations_place, and_assoc]
      | emit instruction =>
          simp only [List.cons_append, Placeable, inductionHypothesis,
            creations_emit]

@[simp]
theorem placeable_emitAll (created : Nat) (code : List Instruction) :
    Placeable created (emitAll code) := by
  induction code with
  | nil =>
      trivial
  | cons head tail inductionHypothesis =>
      exact inductionHypothesis

end Entry

namespace Assembly

open Entry

/-! ## Entries inside an assembly -/

/-- The entries stand in an assembly from an address on: each instruction at its
place, and each placed label with the address of the next instruction. -/
def Carries (assembly : Assembly) : Nat → List Entry → Prop
  | _, [] => True
  | address, .create :: rest => assembly.Carries address rest
  | address, .place label :: rest =>
      assembly.labels.address? label = some address ∧
        assembly.Carries address rest
  | address, .emit instruction :: rest =>
      assembly.code[address]? = some instruction ∧
        assembly.Carries (address + 1) rest

theorem carries_append
    {assembly : Assembly} {address : Nat} {first second : List Entry} :
    assembly.Carries address (first ++ second) ↔
      assembly.Carries address first ∧
        assembly.Carries (address + width first) second := by
  induction first generalizing address with
  | nil =>
      simp [Carries]
  | cons entry rest inductionHypothesis =>
      cases entry with
      | create =>
          simp only [List.cons_append, Carries, inductionHypothesis,
            width_create]
      | place label =>
          simp only [List.cons_append, Carries, inductionHypothesis,
            width_place, and_assoc]
      | emit instruction =>
          simp only [List.cons_append, Carries, inductionHypothesis,
            width_emit, and_assoc, Nat.add_assoc, Nat.add_comm 1]

theorem carries_emitAll_append
    {assembly : Assembly} {address : Nat} {first second : List Instruction} :
    assembly.Carries address (emitAll (first ++ second)) ↔
      assembly.Carries address (emitAll first) ∧
        assembly.Carries (address + first.length) (emitAll second) := by
  rw [show emitAll (first ++ second) = emitAll first ++ emitAll second from
      List.map_append, carries_append, width_emitAll]

theorem exists_address_of_carries
    {assembly : Assembly} {address : Nat} {entries : List Entry}
    (carries : assembly.Carries address entries)
    {label : Label} (member : label ∈ placed entries) :
    ∃ here, assembly.labels.address? label = some here := by
  induction entries generalizing address with
  | nil =>
      cases member
  | cons entry rest inductionHypothesis =>
      cases entry with
      | create =>
          exact inductionHypothesis carries member
      | place other =>
          rcases List.mem_cons.mp member with rfl | later
          · exact ⟨address, carries.1⟩
          · exact inductionHypothesis carries.2 later
      | emit instruction =>
          exact inductionHypothesis carries.2 member

/-- Everything that stands in one assembly stands in another one as well. -/
structure Extends (before after : Assembly) : Prop where
  code :
    ∀ (address : Nat) instruction, before.code[address]? = some instruction →
      after.code[address]? = some instruction
  labels :
    ∀ label address, before.labels.address? label = some address →
      after.labels.address? label = some address

theorem Extends.refl (assembly : Assembly) : Extends assembly assembly :=
  ⟨fun _ _ found => found, fun _ _ found => found⟩

theorem Extends.trans
    {first second third : Assembly}
    (earlier : Extends first second) (later : Extends second third) :
    Extends first third :=
  ⟨fun address instruction found =>
      later.code address instruction (earlier.code address instruction found),
    fun label address found =>
      later.labels label address (earlier.labels label address found)⟩

theorem Carries.mono
    {before after : Assembly} {address : Nat} {entries : List Entry}
    (carries : before.Carries address entries)
    (extended : Extends before after) :
    after.Carries address entries := by
  induction entries generalizing address with
  | nil =>
      trivial
  | cons entry rest inductionHypothesis =>
      cases entry with
      | create =>
          exact inductionHypothesis carries
      | place label =>
          exact
            ⟨extended.labels label address carries.1,
              inductionHypothesis carries.2⟩
      | emit instruction =>
          exact
            ⟨extended.code address instruction carries.1,
              inductionHypothesis carries.2⟩

/-! ## Assembling one entry -/

variable {before after : Assembly}

theorem step_create
    (assembled : before.step .create = .ok after) :
    after = { before with labels := before.labels.create } := by
  cases assembled
  rfl

theorem step_emit
    {instruction : Instruction}
    (assembled : before.step (.emit instruction) = .ok after) :
    after = { before with code := before.code.push instruction } := by
  cases assembled
  rfl

theorem step_place
    {label : Label} (assembled : before.step (.place label) = .ok after) :
    ∃ labels, before.labels.place label before.code.size = .ok labels ∧
      after = { before with labels := labels } := by
  obtain ⟨labels, placed, assembled⟩ := bind_eq_ok_iff.mp assembled
  cases assembled
  exact ⟨labels, placed, rfl⟩

theorem extends_of_step
    {entry : Entry} (assembled : before.step entry = .ok after) :
    Extends before after := by
  cases entry with
  | create =>
      rw [step_create assembled]
      exact ⟨fun _ _ found => found, fun label _ found => by simpa using found⟩
  | emit instruction =>
      rw [step_emit assembled]
      refine ⟨fun address _ found => ?_, fun _ _ found => found⟩
      have bound := (Array.getElem?_eq_some_iff.mp found).1
      rw [Array.getElem?_push, if_neg (by omega)]
      exact found
  | place label =>
      obtain ⟨labels, placed, rfl⟩ := step_place assembled
      refine ⟨fun _ _ found => found, fun other address found => ?_⟩
      have different : other ≠ label := by
        rintro rfl
        have free := (LabelTable.of_place placed).2.1
        rw [found] at free
        cases free
      rw [LabelTable.address?_place_of_ne placed different]
      exact found

/-! ## Assembling entries one after the other -/

theorem extends_of_run
    {entries : List Entry}
    (assembled : entries.foldlM step before = .ok after) :
    Extends before after := by
  induction entries generalizing before with
  | nil =>
      cases assembled
      exact Extends.refl _
  | cons entry rest inductionHypothesis =>
      rw [List.foldlM_cons] at assembled
      obtain ⟨middle, first, others⟩ := bind_eq_ok_iff.mp assembled
      exact (extends_of_step first).trans (inductionHypothesis others)

theorem carries_of_run
    {entries : List Entry}
    (assembled : entries.foldlM step before = .ok after) :
    after.Carries before.code.size entries := by
  induction entries generalizing before with
  | nil =>
      trivial
  | cons entry rest inductionHypothesis =>
      rw [List.foldlM_cons] at assembled
      obtain ⟨middle, first, others⟩ := bind_eq_ok_iff.mp assembled
      have extended := extends_of_run others
      have carried := inductionHypothesis others
      cases entry with
      | create =>
          rw [step_create first] at carried
          exact carried
      | emit instruction =>
          have shape := step_emit first
          subst shape
          refine ⟨extended.code _ _ ?_, ?_⟩
          · simp
          · simpa using carried
      | place label =>
          obtain ⟨labels, placed, rfl⟩ := step_place first
          exact
            ⟨extended.labels _ _ (LabelTable.address?_place_self placed), carried⟩

theorem code_of_run
    {entries : List Entry}
    (assembled : entries.foldlM step before = .ok after) :
    after.code = before.code ++ (instructions entries).toArray := by
  induction entries generalizing before with
  | nil =>
      cases assembled
      simp
  | cons entry rest inductionHypothesis =>
      rw [List.foldlM_cons] at assembled
      obtain ⟨middle, first, others⟩ := bind_eq_ok_iff.mp assembled
      rw [inductionHypothesis others]
      cases entry with
      | create =>
          rw [step_create first]
          simp
      | emit instruction =>
          rw [step_emit first]
          simp
      | place label =>
          obtain ⟨labels, _, rfl⟩ := step_place first
          simp

/-- The numbers of labels behind a run, and the labels that it leaves alone. -/
theorem labels_of_run
    {entries : List Entry}
    (assembled : entries.foldlM step before = .ok after) :
    after.labels.created = before.labels.created + creations entries ∧
      after.labels.placed =
        before.labels.placed + (placed entries).length := by
  induction entries generalizing before with
  | nil =>
      cases assembled
      simp
  | cons entry rest inductionHypothesis =>
      rw [List.foldlM_cons] at assembled
      obtain ⟨middle, first, others⟩ := bind_eq_ok_iff.mp assembled
      obtain ⟨created, counted⟩ := inductionHypothesis others
      cases entry with
      | create =>
          rw [step_create first] at created counted
          simp only [LabelTable.created_create,
            LabelTable.placed_create] at created counted
          simp only [creations_create, placed_create]
          omega
      | emit instruction =>
          rw [step_emit first] at created counted
          exact ⟨created, counted⟩
      | place label =>
          obtain ⟨labels, success, rfl⟩ := step_place first
          simp only [LabelTable.created_place success,
            LabelTable.placed_place success] at created counted
          simp only [creations_place, placed_place, List.length_cons]
          omega

/-- Assembling succeeds when the labels that are placed exist by then, are
placed once and had no address. -/
theorem exists_run
    {entries : List Entry}
    (placeable : Placeable before.labels.created entries)
    (nodup : (placed entries).Nodup)
    (free : ∀ label ∈ placed entries, before.labels.address? label = none) :
    ∃ after, entries.foldlM step before = .ok after := by
  induction entries generalizing before with
  | nil =>
      exact ⟨before, rfl⟩
  | cons entry rest inductionHypothesis =>
      cases entry with
      | create =>
          let middle : Assembly :=
            { before with labels := before.labels.create }
          have middlePlaceable : Placeable middle.labels.created rest := by
            simpa [middle, Placeable] using placeable
          have middleFree :
              ∀ label ∈ placed rest, middle.labels.address? label = none := by
            simpa [middle] using free
          exact inductionHypothesis middlePlaceable nodup middleFree
      | emit instruction =>
          let middle : Assembly :=
            { before with code := before.code.push instruction }
          have middlePlaceable : Placeable middle.labels.created rest :=
            placeable
          exact inductionHypothesis middlePlaceable nodup free
      | place label =>
          rw [placed_place, List.nodup_cons] at nodup
          rw [placed_place, List.forall_mem_cons] at free
          obtain ⟨labels, success⟩ :
              ∃ labels,
                before.labels.place label before.code.size = .ok labels :=
            ⟨_, LabelTable.place_eq_ok placeable.1 free.1⟩
          let middle : Assembly := { before with labels := labels }
          have middlePlaceable : Placeable middle.labels.created rest := by
            simpa [middle, LabelTable.created_place success] using placeable.2
          have middleFree :
              ∀ other ∈ placed rest, middle.labels.address? other = none := by
            intro other member
            have different : other ≠ label := by
              rintro rfl
              exact nodup.1 member
            rw [LabelTable.address?_place_of_ne success different]
            exact free.2 other member
          obtain ⟨after, run⟩ :=
            inductionHypothesis middlePlaceable nodup.2 middleFree
          refine ⟨after, ?_⟩
          rw [List.foldlM_cons]
          refine bind_eq_ok_iff.mpr ⟨middle, ?_, run⟩
          exact bind_eq_ok_iff.mpr ⟨labels, success, rfl⟩

/-- Where assembling succeeds, the labels that are placed exist by then, are
placed once and had no address. -/
theorem placeable_of_run
    {entries : List Entry}
    (assembled : entries.foldlM step before = .ok after) :
    Placeable before.labels.created entries ∧ (placed entries).Nodup ∧
      ∀ label ∈ placed entries, before.labels.address? label = none := by
  induction entries generalizing before with
  | nil =>
      simp [Placeable]
  | cons entry rest inductionHypothesis =>
      rw [List.foldlM_cons] at assembled
      obtain ⟨middle, first, others⟩ := bind_eq_ok_iff.mp assembled
      have later := inductionHypothesis others
      cases entry with
      | create =>
          rw [step_create first] at later
          simpa [Placeable] using later
      | emit instruction =>
          rw [step_emit first] at later
          exact later
      | place label =>
          obtain ⟨labels, success, rfl⟩ := step_place first
          obtain ⟨placeable, nodup, free⟩ := later
          have existing := LabelTable.of_place success
          have absent : label ∉ placed rest := by
            intro member
            have unplaced := free label member
            rw [LabelTable.address?_place_self success] at unplaced
            cases unplaced
          rw [LabelTable.created_place success] at placeable
          refine
            ⟨⟨existing.1, placeable⟩, List.nodup_cons.mpr ⟨absent, nodup⟩, ?_⟩
          refine List.forall_mem_cons.mpr ⟨existing.2.1, ?_⟩
          intro other member
          have different : other ≠ label := by
            rintro rfl
            exact absent member
          rw [← LabelTable.address?_place_of_ne success different]
          exact free other member

/-! ## Addresses increase -/

/-- The label placed last has the largest address, and no label stands behind
the address of the next instruction. -/
structure Ordered (assembly : Assembly) : Prop where
  bounded :
    ∀ last ∈ assembly.labels.lastPlaced, last ≤ assembly.code.size
  attained :
    ∀ last ∈ assembly.labels.lastPlaced,
      ∃ label, assembly.labels.address? label = some last
  greatest :
    ∀ label address, assembly.labels.address? label = some address →
      ∃ last, assembly.labels.lastPlaced = some last ∧ address ≤ last

theorem ordered_of_step
    {entry : Entry} (ordered : Ordered before)
    (assembled : before.step entry = .ok after) :
    Ordered after := by
  cases entry with
  | create =>
      rw [step_create assembled]
      refine ⟨ordered.bounded, ?_, ?_⟩
      · simpa using ordered.attained
      · simpa using ordered.greatest
  | emit instruction =>
      rw [step_emit assembled]
      refine ⟨?_, ordered.attained, ordered.greatest⟩
      intro last recorded
      have bound := ordered.bounded last recorded
      simp only [Array.size_push]
      omega
  | place label =>
      obtain ⟨labels, placed, rfl⟩ := step_place assembled
      have recorded := LabelTable.lastPlaced_place placed
      refine ⟨?_, ?_, ?_⟩
      · intro last here
        rw [recorded] at here
        cases here
        exact Nat.le_refl _
      · intro last here
        rw [recorded] at here
        cases here
        exact ⟨label, LabelTable.address?_place_self placed⟩
      · intro other address found
        refine ⟨before.code.size, recorded, ?_⟩
        by_cases same : other = label
        · subst same
          rw [LabelTable.address?_place_self placed] at found
          cases found
          exact Nat.le_refl _
        · rw [LabelTable.address?_place_of_ne placed same] at found
          obtain ⟨last, earlier, bound⟩ := ordered.greatest other address found
          exact Nat.le_trans bound (ordered.bounded last earlier)

theorem ordered_of_run
    {entries : List Entry} (ordered : Ordered before)
    (assembled : entries.foldlM step before = .ok after) :
    Ordered after := by
  induction entries generalizing before with
  | nil =>
      cases assembled
      exact ordered
  | cons entry rest inductionHypothesis =>
      rw [List.foldlM_cons] at assembled
      obtain ⟨middle, first, others⟩ := bind_eq_ok_iff.mp assembled
      exact inductionHypothesis (ordered_of_step ordered first) others

theorem needsGuard_iff
    {assembly : Assembly} (ordered : Ordered assembly) :
    assembly.needsGuard = true ↔
      ∃ label, assembly.labels.address? label = some assembly.code.size := by
  unfold needsGuard
  rw [decide_eq_true_iff]
  constructor
  · intro last
    exact ordered.attained _ last
  · rintro ⟨label, found⟩
    obtain ⟨last, recorded, bound⟩ := ordered.greatest label _ found
    have limit := ordered.bounded last recorded
    rw [recorded, Nat.le_antisymm limit bound]

@[simp]
theorem labels_guarded (assembly : Assembly) :
    assembly.guarded.labels = assembly.labels := by
  unfold guarded
  split <;> rfl

theorem extends_guarded (assembly : Assembly) :
    Extends assembly assembly.guarded := by
  refine ⟨fun address instruction found => ?_, fun label address found => ?_⟩
  · unfold guarded
    split
    · have bound := (Array.getElem?_eq_some_iff.mp found).1
      rw [Array.getElem?_push, if_neg (by omega)]
      exact found
    · exact found
  · rw [labels_guarded]
    exact found

/-- With the guard, every label stands before some instruction. -/
theorem lt_size_guarded
    {assembly : Assembly} (ordered : Ordered assembly)
    {label : Label} {address : Nat}
    (found : assembly.labels.address? label = some address) :
    address < assembly.guarded.code.size := by
  obtain ⟨last, recorded, bound⟩ := ordered.greatest label address found
  have limit := ordered.bounded last recorded
  unfold guarded
  split
  · simp only [Array.size_push]
    omega
  · next unguarded =>
      have inside : address ≠ assembly.code.size := by
        rintro rfl
        exact unguarded ((needsGuard_iff ordered).mpr ⟨label, found⟩)
      omega

/-! ## The text of an assembly -/

theorem exists_mapM
    {render : Instruction → Except LabelFault String}
    {code : List Instruction}
    (rendered : ∀ instruction ∈ code, ∃ line, render instruction = .ok line) :
    ∃ lines, code.mapM render = .ok lines := by
  induction code with
  | nil =>
      exact ⟨[], rfl⟩
  | cons first others inductionHypothesis =>
      obtain ⟨⟨line, here⟩, later⟩ := List.forall_mem_cons.mp rendered
      obtain ⟨lines, rest⟩ := inductionHypothesis later
      refine ⟨line :: lines, ?_⟩
      rw [List.mapM_cons, here, rest]
      rfl

theorem getElem?_of_mapM
    {render : Instruction → Except LabelFault String}
    {code : List Instruction} {lines : List String}
    (rendered : code.mapM render = .ok lines) :
    lines.length = code.length ∧
      ∀ (index : Nat) instruction, code[index]? = some instruction →
        ∃ line, render instruction = .ok line ∧ lines[index]? = some line := by
  induction code generalizing lines with
  | nil =>
      cases rendered
      simp
  | cons first others inductionHypothesis =>
      rw [List.mapM_cons] at rendered
      obtain ⟨line, here, rendered⟩ := bind_eq_ok_iff.mp rendered
      obtain ⟨rest, later, rendered⟩ := bind_eq_ok_iff.mp rendered
      cases rendered
      obtain ⟨sameLength, lookup⟩ := inductionHypothesis later
      refine ⟨by simp [sameLength], ?_⟩
      intro index instruction found
      cases index with
      | zero =>
          cases found
          exact ⟨line, here, rfl⟩
      | succ index =>
          exact lookup index instruction found

theorem exists_listing
    {assembly : Assembly}
    (complete : assembly.labels.placed = assembly.labels.created)
    (aimed : ∀ target condition,
      Instruction.jump target condition ∈ assembly.code →
        ∃ address, assembly.labels.address? target = some address) :
    ∃ lines, assembly.listing = .ok lines := by
  unfold listing
  rw [if_pos complete]
  refine exists_mapM fun instruction member => ?_
  cases instruction with
  | jump target condition =>
      obtain ⟨address, found⟩ :=
        aimed target condition (Array.mem_def.mpr member)
      exact ⟨_, by rw [Instruction.render, found]⟩
  | set | op | read | write | raw | halt | noop =>
      exact ⟨_, rfl⟩

theorem exists_address_of_listing
    {assembly : Assembly} {lines : List String}
    (listed : assembly.listing = .ok lines) :
    assembly.labels.placed = assembly.labels.created ∧
      ∀ target condition,
        Instruction.jump target condition ∈ assembly.code →
          ∃ address, assembly.labels.address? target = some address := by
  unfold listing at listed
  split at listed
  · next complete =>
      refine ⟨complete, fun target condition member => ?_⟩
      obtain ⟨index, inside, here⟩ :=
        List.getElem_of_mem (Array.mem_def.mp member)
      obtain ⟨line, rendered, _⟩ :=
        (getElem?_of_mapM listed).2 index _ (List.getElem?_eq_getElem inside)
      rw [here, Instruction.render] at rendered
      cases placed : assembly.labels.address? target with
      | none =>
          rw [placed] at rendered
          cases rendered
      | some address =>
          exact ⟨address, rfl⟩
  · cases listed

theorem getElem?_of_listing
    {assembly : Assembly} {lines : List String}
    (listed : assembly.listing = .ok lines) :
    lines.length = assembly.code.size ∧
      ∀ (index : Nat) instruction, assembly.code[index]? = some instruction →
        ∃ line, instruction.render assembly.labels = .ok line ∧
          lines[index]? = some line := by
  unfold listing at listed
  split at listed
  · simpa using getElem?_of_mapM listed
  · cases listed

end Assembly

end FlatCode
