import FlatCode.Label

/-!
# The label table as a write-once map

A table is seen through two of its functions: `created`, the number of labels
that exist, and `address?`, the address of a label that was placed.  Placing a
label succeeds exactly for labels that exist and have no address, and changes
`address?` at that one label only.
-/

namespace FlatCode.LabelTable

variable {table after : LabelTable} {label other : Label} {address : Nat}

@[simp]
theorem address?_empty (label : Label) : empty.address? label = none := by
  simp [address?, empty]

@[simp]
theorem created_create (table : LabelTable) :
    table.create.created = table.created + 1 := by
  simp [created, create]

@[simp]
theorem placed_create (table : LabelTable) :
    table.create.placed = table.placed := by
  simp [placed, create]

@[simp]
theorem lastPlaced_create (table : LabelTable) :
    table.create.lastPlaced = table.lastPlaced := rfl

@[simp]
theorem address?_create (table : LabelTable) (label : Label) :
    table.create.address? label = table.address? label := by
  unfold address? create
  rw [Array.getElem?_push]
  split
  · next last => simp [last]
  · rfl

@[simp]
theorem created_createMany (table : LabelTable) (count : Nat) :
    (table.createMany count).created = table.created + count := by
  simp [created, createMany]

theorem created_createMany_empty (count : Nat) :
    (empty.createMany count).created = count := by
  rw [created_createMany]
  exact Nat.zero_add count

@[simp]
theorem placed_createMany (table : LabelTable) (count : Nat) :
    (table.createMany count).placed = table.placed := by
  simp [placed, createMany, Array.countP_replicate]

@[simp]
theorem address?_createMany (table : LabelTable) (count : Nat) (label : Label) :
    (table.createMany count).address? label = table.address? label := by
  unfold address? createMany
  rw [Array.getElem?_append]
  split
  · rfl
  · next beyond =>
      rw [Array.getElem?_eq_none (Nat.le_of_not_lt beyond),
        Array.getElem?_replicate]
      split <;> rfl

theorem place_eq_ok
    (existing : label.number < table.created)
    (free : table.address? label = none) :
    table.place label address =
      .ok
        { addresses := table.addresses.setIfInBounds label.number (some address)
          lastPlaced := some address } := by
  have slot : table.addresses[label.number]? = some none := by
    unfold address? at free
    rw [Array.getElem?_eq_getElem existing] at free ⊢
    exact congrArg some free
  simp [place, slot]

theorem of_place
    (placed : table.place label address = .ok after) :
    label.number < table.created ∧ table.address? label = none ∧
      after =
        { addresses := table.addresses.setIfInBounds label.number (some address)
          lastPlaced := some address } := by
  unfold place at placed
  split at placed
  · cases placed
  · cases placed
  · next slot =>
      cases placed
      exact
        ⟨(Array.getElem?_eq_some_iff.mp slot).1, by simp [address?, slot], rfl⟩

theorem created_place (placed : table.place label address = .ok after) :
    after.created = table.created := by
  obtain ⟨_, _, rfl⟩ := of_place placed
  simp [created]

theorem lastPlaced_place (placed : table.place label address = .ok after) :
    after.lastPlaced = some address := by
  obtain ⟨_, _, rfl⟩ := of_place placed
  rfl

theorem address?_place_self
    (placed : table.place label address = .ok after) :
    after.address? label = some address := by
  obtain ⟨existing, _, rfl⟩ := of_place placed
  simp only [address?]
  rw [Array.getElem?_setIfInBounds_self_of_lt existing]
  rfl

theorem address?_place_of_ne
    (placed : table.place label address = .ok after) (different : other ≠ label) :
    after.address? other = table.address? other := by
  obtain ⟨_, _, rfl⟩ := of_place placed
  have numbers : label.number ≠ other.number := by
    intro same
    exact different (by cases other; cases label; simp_all)
  simp only [address?]
  rw [Array.getElem?_setIfInBounds_ne numbers]

theorem placed_place (success : table.place label address = .ok after) :
    after.placed = table.placed + 1 := by
  obtain ⟨existing, free, rfl⟩ := of_place success
  have bound : label.number < table.addresses.size := existing
  have slot : table.addresses[label.number] = none := by
    unfold address? at free
    rwa [Array.getElem?_eq_getElem bound] at free
  simp only [placed, Array.setIfInBounds, bound, dif_pos]
  rw [Array.countP_set bound]
  simp [slot]

end FlatCode.LabelTable
