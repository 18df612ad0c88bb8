import FlatCode.Proofs.Layout.Label
import Mathlib.Data.List.Nodup

/-!
# A label table and its history

Labels are created, placed and looked up in any order, and a placement that is
refused leaves the table as it is.  What a table answers can be told from what
was asked and answered before:

* labels are handed out with the numbers `0, 1, 2, …`;
* a label has the address of its one successful placement, which came after the
  label was handed out;
* a placement succeeds exactly for labels that were handed out and not placed;
* the counts and the last address are those of the successful placements.

`Recalls` states this of one table and one history.  One more request keeps it,
so it holds behind every sequence of requests.
-/

namespace FlatCode.LabelTable

/-! ## Requests and their replies -/

inductive Request where
  | create
  | place (label : Label) (address : Nat)
  | find (label : Label)
  deriving DecidableEq, Repr

inductive Reply where
  | created (label : Label)
  | placed
  | refused (fault : LabelFault)
  | found (address : Option Nat)
  deriving DecidableEq, Repr

abbrev Exchange :=
  Request × Reply

/-- Let a table reply to a request.  A refused placement leaves it as it is. -/
def serve (table : LabelTable) : Request → Reply × LabelTable
  | .create => (.created table.next, table.create)
  | .place label address =>
      match table.place label address with
      | .ok after => (.placed, after)
      | .error fault => (.refused fault, table)
  | .find label => (.found (table.address? label), table)

def after (table : LabelTable) (requests : List Request) : LabelTable :=
  requests.foldl (fun current request => (current.serve request).2) table

def exchanges (table : LabelTable) : List Request → List Exchange
  | [] => []
  | request :: later =>
      (request, (table.serve request).1) ::
        exchanges (table.serve request).2 later

theorem exchanges_append
    (table : LabelTable) (early late : List Request) :
    table.exchanges (early ++ late) =
      table.exchanges early ++ (table.after early).exchanges late := by
  induction early generalizing table with
  | nil =>
      rfl
  | cons request early inductionHypothesis =>
      rw [List.cons_append, exchanges, exchanges, inductionHypothesis]
      rfl

theorem map_fst_exchanges (table : LabelTable) (requests : List Request) :
    (table.exchanges requests).map Prod.fst = requests := by
  induction requests generalizing table with
  | nil =>
      rfl
  | cons request later inductionHypothesis =>
      rw [exchanges, List.map_cons, inductionHypothesis]

/-- An exchange of a history is the reply of the table behind the requests
before it. -/
theorem exists_split_of_exchanges
    {table : LabelTable} {requests : List Request} {front back : List Exchange}
    {exchange : Exchange}
    (split : table.exchanges requests = front ++ exchange :: back) :
    ∃ early,
      front = table.exchanges early ∧
        exchange.2 = ((table.after early).serve exchange.1).1 := by
  induction front generalizing table requests with
  | nil =>
      cases requests with
      | nil =>
          cases split
      | cons request later =>
          cases split
          exact ⟨[], rfl, rfl⟩
  | cons first front inductionHypothesis =>
      cases requests with
      | nil =>
          cases split
      | cons request later =>
          obtain ⟨rfl, behind⟩ := List.cons.inj split
          obtain ⟨early, rfl, replied⟩ := inductionHypothesis behind
          exact ⟨request :: early, rfl, replied⟩

/-! ## What a history tells -/

/-- The labels handed out in a history, in order. -/
def handedOut (history : List Exchange) : List Label :=
  history.filterMap fun
    | (.create, .created label) => some label
    | _ => none

/-- The placements of a history that succeeded, in order. -/
def placements (history : List Exchange) : List (Label × Nat) :=
  history.filterMap fun
    | (.place label address, .placed) => some (label, address)
    | _ => none

theorem handedOut_append (front back : List Exchange) :
    handedOut (front ++ back) = handedOut front ++ handedOut back :=
  List.filterMap_append

theorem placements_append (front back : List Exchange) :
    placements (front ++ back) = placements front ++ placements back :=
  List.filterMap_append

/-- A successful placement stands somewhere in the history. -/
theorem exists_split_of_mem_placements
    {history : List Exchange} {label : Label} {address : Nat}
    (member : (label, address) ∈ placements history) :
    ∃ front back, history = front ++ (.place label address, .placed) :: back := by
  obtain ⟨⟨request, reply⟩, exchanged, shown⟩ := List.mem_filterMap.mp member
  split at shown
  · next same =>
      cases same
      cases shown
      exact List.append_of_mem exchanged
  · cases shown

/-- A table is as its history tells. -/
structure Recalls (history : List Exchange) (table : LabelTable) : Prop where
  created : table.created = (history.map Prod.fst).count .create
  handedOut : handedOut history = (List.range table.created).map Label.mk
  address? :
    ∀ label address,
      table.address? label = some address ↔ (label, address) ∈ placements history
  once : ((placements history).map Prod.fst).Nodup
  known : ∀ label ∈ (placements history).map Prod.fst, label.number < table.created
  placed : table.placed = (placements history).length
  lastPlaced : table.lastPlaced = (placements history).getLast?.map Prod.snd

variable {history : List Exchange} {table : LabelTable}

theorem recalls_empty : Recalls [] empty where
  created := rfl
  handedOut := rfl
  address? label address := by simp [placements]
  once := List.nodup_nil
  known := by simp [placements]
  placed := rfl
  lastPlaced := rfl

/-! ## One more request -/

/-- An exchange that hands out no label and places none tells nothing new. -/
theorem Recalls.idle
    (recalls : Recalls history table) {exchange : Exchange}
    (noCreation : exchange.1 ≠ .create)
    (noLabel : LabelTable.handedOut [exchange] = [])
    (noPlacement : placements [exchange] = []) :
    Recalls (history ++ [exchange]) table := by
  have placements_eq : placements (history ++ [exchange]) = placements history := by
    rw [placements_append, noPlacement, List.append_nil]
  refine ⟨?_, ?_, ?_, ?_, ?_, ?_, ?_⟩
  · rw [List.map_append, List.count_append, recalls.created, List.map_singleton,
      List.count_singleton, if_neg (by simpa using noCreation), Nat.add_zero]
  · rw [handedOut_append, noLabel, List.append_nil, recalls.handedOut]
  · simpa only [placements_eq] using recalls.address?
  · simpa only [placements_eq] using recalls.once
  · simpa only [placements_eq] using recalls.known
  · rw [placements_eq, recalls.placed]
  · rw [placements_eq, recalls.lastPlaced]

theorem Recalls.create (recalls : Recalls history table) :
    Recalls (history ++ [(.create, .created table.next)]) table.create := by
  have placements_eq :
      placements (history ++ [(.create, .created table.next)]) =
        placements history :=
    (placements_append _ _).trans (List.append_nil _)
  refine ⟨?_, ?_, ?_, ?_, ?_, ?_, ?_⟩
  · rw [created_create, List.map_append, List.count_append, recalls.created]
    rfl
  · rw [handedOut_append, recalls.handedOut, created_create, List.range_succ,
      List.map_append]
    rfl
  · simpa only [placements_eq, address?_create] using recalls.address?
  · simpa only [placements_eq] using recalls.once
  · intro label member
    rw [placements_eq] at member
    rw [created_create]
    exact Nat.lt_succ_of_lt (recalls.known label member)
  · rw [placements_eq, placed_create, recalls.placed]
  · rw [placements_eq, lastPlaced_create, recalls.lastPlaced]

/-- A label without an address was not placed. -/
theorem Recalls.not_mem_of_address?
    (recalls : Recalls history table) {label : Label}
    (free : table.address? label = none) :
    label ∉ (placements history).map Prod.fst := by
  intro member
  obtain ⟨⟨placed, address⟩, recorded, rfl⟩ := List.mem_map.mp member
  rw [(recalls.address? placed address).mpr recorded] at free
  cases free

theorem Recalls.place
    (recalls : Recalls history table) {label : Label} {address : Nat}
    {placed : LabelTable} (success : table.place label address = .ok placed) :
    Recalls (history ++ [(.place label address, .placed)]) placed := by
  obtain ⟨existing, free, _⟩ := of_place success
  have placements_eq :
      placements (history ++ [(.place label address, .placed)]) =
        placements history ++ [(label, address)] :=
    placements_append _ _
  have fresh := recalls.not_mem_of_address? free
  refine ⟨?_, ?_, ?_, ?_, ?_, ?_, ?_⟩
  · rw [created_place success, List.map_append, List.count_append,
      recalls.created]
    rfl
  · rw [handedOut_append, recalls.handedOut, created_place success]
    exact List.append_nil _
  · intro other found
    rw [placements_eq, List.mem_append, List.mem_singleton, Prod.mk.injEq]
    by_cases same : other = label
    · subst same
      rw [address?_place_self success, ← recalls.address?, free]
      simp [eq_comm]
    · rw [address?_place_of_ne success same, recalls.address?]
      simp [same]
  · rw [placements_eq, List.map_append, List.nodup_append]
    refine ⟨recalls.once, List.nodup_singleton _, ?_⟩
    intro early member late last same
    rw [List.map_singleton, List.mem_singleton] at last
    rw [same, last] at member
    exact fresh member
  · intro other member
    rw [placements_eq, List.map_append, List.mem_append] at member
    rw [created_place success]
    rcases member with early | last
    · exact recalls.known other early
    · rw [List.map_singleton, List.mem_singleton] at last
      exact last ▸ existing
  · rw [placements_eq, placed_place success, recalls.placed,
      List.length_append]
    rfl
  · rw [placements_eq, lastPlaced_place success, List.getLast?_concat]
    rfl

/-- One more request keeps the history true of the table. -/
theorem Recalls.serve (recalls : Recalls history table) (request : Request) :
    Recalls (history ++ [(request, (table.serve request).1)])
      (table.serve request).2 := by
  cases request with
  | create =>
      exact recalls.create
  | find label =>
      exact recalls.idle (by simp) rfl rfl
  | place label address =>
      rw [LabelTable.serve]
      cases success : table.place label address with
      | error fault =>
          exact recalls.idle (by simp) rfl rfl
      | ok placed =>
          exact recalls.place success

/-- The history that goes on behind a history that is true of a table. -/
theorem Recalls.after
    (recalls : Recalls history table) (requests : List Request) :
    Recalls (history ++ table.exchanges requests) (table.after requests) := by
  induction requests generalizing history table with
  | nil =>
      rw [exchanges, List.append_nil]
      exact recalls
  | cons request later inductionHypothesis =>
      have goesOn := inductionHypothesis (recalls.serve request)
      rwa [List.append_assoc] at goesOn

theorem recalls_exchanges (requests : List Request) :
    Recalls (empty.exchanges requests) (empty.after requests) :=
  recalls_empty.after requests

/-! ## Labels, handed out and placed -/

theorem Recalls.mem_handedOut_iff
    (recalls : Recalls history table) (label : Label) :
    label ∈ LabelTable.handedOut history ↔ label.number < table.created := by
  rw [recalls.handedOut, List.mem_map]
  constructor
  · rintro ⟨number, inside, rfl⟩
    exact List.mem_range.mp inside
  · intro existing
    exact ⟨label.number, List.mem_range.mpr existing, rfl⟩

theorem Recalls.address?_eq_none_iff
    (recalls : Recalls history table) (label : Label) :
    table.address? label = none ↔ label ∉ (placements history).map Prod.fst := by
  constructor
  · exact recalls.not_mem_of_address?
  · intro fresh
    rw [Option.eq_none_iff_forall_ne_some]
    intro address found
    have recorded := (recalls.address? label address).mp found
    exact fresh (List.mem_map.mpr ⟨_, recorded, rfl⟩)

/-- A placement succeeds exactly for labels that exist and have no address. -/
theorem serve_place_eq_placed_iff
    (table : LabelTable) (label : Label) (address : Nat) :
    (table.serve (.place label address)).1 = .placed ↔
      label.number < table.created ∧ table.address? label = none := by
  constructor
  · intro success
    cases placed : table.place label address with
    | error fault =>
        rw [serve, placed] at success
        cases success
    | ok after =>
        obtain ⟨existing, free, _⟩ := of_place placed
        exact ⟨existing, free⟩
  · rintro ⟨existing, free⟩
    rw [serve, place_eq_ok existing free]

/-- A label that is placed can be placed neither before nor behind. -/
theorem Recalls.placed_once
    {front back : List Exchange} {label : Label} {address : Nat}
    (recalls :
      Recalls (front ++ (.place label address, .placed) :: back) table)
    (other : Nat) :
    (label, other) ∉ placements (front ++ back) := by
  have once := recalls.once
  rw [placements_append, List.map_append,
    show placements ((.place label address, .placed) :: back) =
      (label, address) :: placements back from rfl, List.map_cons,
    List.nodup_middle, List.nodup_cons, ← List.map_append,
    ← placements_append] at once
  exact fun member => once.1 (List.mem_map.mpr ⟨_, member, rfl⟩)

/-! ## The main statement -/

/-- Behind every sequence of requests a label table is the write-once map that the
requests and replies tell of. -/
theorem table_tells_history (requests : List Request) :
    (empty.after requests).created = requests.count .create ∧
      handedOut (empty.exchanges requests) =
        (List.range (requests.count .create)).map Label.mk ∧
      (∀ label address,
        (empty.after requests).address? label = some address ↔
          ∃ front back,
            empty.exchanges requests =
                front ++ (.place label address, .placed) :: back ∧
              label ∈ handedOut front ∧
              ∀ other, (label, other) ∉ placements (front ++ back)) ∧
      (∀ later label address,
        (empty.after requests).address? label = some address →
          (empty.after (requests ++ later)).address? label = some address) ∧
      (∀ label address,
        ((empty.after requests).serve (.place label address)).1 = .placed ↔
          label ∈ handedOut (empty.exchanges requests) ∧
            label ∉ (placements (empty.exchanges requests)).map Prod.fst) ∧
      (empty.after requests).placed =
        (placements (empty.exchanges requests)).length ∧
      (empty.after requests).placed ≤ (empty.after requests).created ∧
      (empty.after requests).lastPlaced =
        (placements (empty.exchanges requests)).getLast?.map Prod.snd := by
  have recalls := recalls_exchanges requests
  have created : (empty.after requests).created = requests.count .create := by
    rw [recalls.created, map_fst_exchanges]
  refine ⟨created, created ▸ recalls.handedOut, ?_, ?_, ?_, recalls.placed, ?_,
    recalls.lastPlaced⟩
  · intro label address
    rw [recalls.address?]
    constructor
    · intro member
      obtain ⟨front, back, split⟩ := exists_split_of_mem_placements member
      obtain ⟨early, rfl, success⟩ := exists_split_of_exchanges split
      obtain ⟨existing, _⟩ := (serve_place_eq_placed_iff _ _ _).mp success.symm
      refine ⟨_, back, split, ?_, ?_⟩
      · exact ((recalls_exchanges early).mem_handedOut_iff label).mpr existing
      · rw [split] at recalls
        exact recalls.placed_once
    · rintro ⟨front, back, split, _, _⟩
      rw [split, placements_append]
      exact List.mem_append_right _ List.mem_cons_self
  · intro later label address found
    rw [recalls.address?] at found
    rw [(recalls_exchanges _).address?, exchanges_append, placements_append]
    exact List.mem_append_left _ found
  · intro label address
    rw [serve_place_eq_placed_iff, recalls.mem_handedOut_iff,
      recalls.address?_eq_none_iff]
  · have bounded :=
      recalls.once.length_le_of_subset fun label member =>
        (recalls.mem_handedOut_iff label).mpr (recalls.known label member)
    rw [recalls.handedOut, List.length_map, List.length_map,
      List.length_range] at bounded
    rwa [recalls.placed]

/-- Between two refused placements, before its label exists and after it has an
address, a placement succeeds; nothing behind it changes the address. -/
theorem table_tells_history_of_refused_placements :
    placements
        (empty.exchanges
          [.place ⟨0⟩ 7, .create, .place ⟨0⟩ 3, .place ⟨0⟩ 4]) =
        [(⟨0⟩, 3)] ∧
      (empty.after
          [.place ⟨0⟩ 7, .create, .place ⟨0⟩ 3, .place ⟨0⟩ 4]).address? ⟨0⟩ =
        some 3 ∧
      (empty.after
          ([.place ⟨0⟩ 7, .create, .place ⟨0⟩ 3, .place ⟨0⟩ 4] ++
            [.create, .place ⟨1⟩ 3, .place ⟨0⟩ 5])).address? ⟨0⟩ =
        some 3 :=
  ⟨by decide, by decide,
    (table_tells_history _).2.2.2.1 _ _ _ (by decide)⟩

end FlatCode.LabelTable
