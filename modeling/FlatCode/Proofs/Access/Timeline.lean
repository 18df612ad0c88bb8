import FlatCode.Proofs.Access.Temporary

/-!
# Where temporaries are written and read

The events of a temporary, each with its address, stand in the order of the code.  A
label has the address of the instruction behind it, so a label behind an instruction
has a later address, and whatever happens behind the write of an instruction happens
at a later address.  This turns what the order of events says of a temporary into
statements about addresses.
-/

namespace FlatCode

open Entry

/-- What happens to an operand in code with labels, and at which address, where the
first instruction has a given address. -/
def timeline (operand : Operand) : Nat → List Entry → List (Event × Nat)
  | _, [] => []
  | address, .create :: rest => timeline operand address rest
  | address, .place _ :: rest =>
      (.label, address) :: timeline operand address rest
  | address, .emit instruction :: rest =>
      ((instruction.events operand).map fun event => (event, address)) ++
        timeline operand (address + 1) rest

section Timeline

variable {operand : Operand} {start : Nat} {entries : List Entry}

theorem map_fst_timeline (operand : Operand) (start : Nat)
    (entries : List Entry) :
    (timeline operand start entries).map Prod.fst =
      history operand entries := by
  induction entries generalizing start with
  | nil =>
      rfl
  | cons entry rest inductionHypothesis =>
      cases entry with
      | create =>
          exact inductionHypothesis start
      | place label =>
          exact congrArg (Event.label :: ·) (inductionHypothesis start)
      | emit instruction =>
          rw [timeline, List.map_append, inductionHypothesis, List.map_map]
          exact congrArg (· ++ _) (List.map_id _)

theorem le_of_mem_timeline
    {event : Event} {address : Nat}
    (member : (event, address) ∈ timeline operand start entries) :
    start ≤ address := by
  induction entries generalizing start with
  | nil =>
      cases member
  | cons entry rest inductionHypothesis =>
      cases entry with
      | create =>
          exact inductionHypothesis member
      | place label =>
          rcases List.mem_cons.mp member with same | later
          · cases same
            exact Nat.le_refl _
          · exact inductionHypothesis later
      | emit instruction =>
          rcases List.mem_append.mp member with here | later
          · obtain ⟨_, _, same⟩ := List.mem_map.mp here
            cases same
            exact Nat.le_refl _
          · exact Nat.le_of_succ_le (inductionHypothesis later)

/-- One event comes before another one.  An instruction has no event behind its
write, and a label behind an instruction stands at a later address. -/
def Precedes (first second : Event × Nat) : Prop :=
  first.2 ≤ second.2 ∧
    (first.1 = .write ∨ first.1 = .read ∧ second.1 = .label →
      first.2 < second.2)

theorem pairwise_events (instruction : Instruction) (address : Nat) :
    ((instruction.events operand).map fun event =>
      (event, address)).Pairwise Precedes := by
  have within {event : Event}
      (member : event ∈
        (if instruction.target? = some operand then [Event.write] else [])) :
      event = .write := by
    split at member
    · exact List.mem_singleton.mp member
    · cases member
  rw [List.pairwise_map, Instruction.events, List.pairwise_append]
  refine ⟨?_, ?_, ?_⟩
  · rw [List.pairwise_replicate]
    exact Or.inr ⟨Nat.le_refl _, by simp⟩
  · split
    · exact List.pairwise_singleton _ _
    · exact List.Pairwise.nil
  · intro first reads second writes
    have firstRead := List.eq_of_mem_replicate reads
    have secondWrite := within writes
    refine ⟨Nat.le_refl _, ?_⟩
    simp [firstRead, secondWrite]

theorem pairwise_timeline (operand : Operand) (start : Nat)
    (entries : List Entry) :
    (timeline operand start entries).Pairwise Precedes := by
  induction entries generalizing start with
  | nil =>
      exact List.Pairwise.nil
  | cons entry rest inductionHypothesis =>
      cases entry with
      | create =>
          exact inductionHypothesis start
      | place label =>
          refine List.pairwise_cons.mpr ⟨?_, inductionHypothesis start⟩
          intro later member
          exact ⟨le_of_mem_timeline member, by simp⟩
      | emit instruction =>
          refine
            List.pairwise_append.mpr
              ⟨pairwise_events instruction start,
                inductionHypothesis (start + 1), ?_⟩
          intro first here second later
          obtain ⟨_, _, rfl⟩ := List.mem_map.mp here
          have behind := le_of_mem_timeline later
          exact ⟨Nat.le_of_succ_le behind, fun _ => behind⟩

theorem mem_events_write {instruction : Instruction} :
    Event.write ∈ instruction.events operand ↔
      instruction.target? = some operand := by
  simp [Instruction.events]

theorem mem_events_read {instruction : Instruction} :
    Event.read ∈ instruction.events operand ↔
      operand ∈ instruction.sources := by
  simp [Instruction.events, List.count_eq_zero]

/-- A read or write stands at the address of its instruction. -/
theorem mem_timeline
    {event : Event} (access : event ≠ .label) {address : Nat} :
    (event, address) ∈ timeline operand start entries ↔
      ∃ index instruction,
        address = start + index ∧
          (instructions entries)[index]? = some instruction ∧
          event ∈ instruction.events operand := by
  induction entries generalizing start with
  | nil =>
      simp [timeline]
  | cons entry rest inductionHypothesis =>
      cases entry with
      | create =>
          exact inductionHypothesis
      | place label =>
          rw [timeline, List.mem_cons, inductionHypothesis]
          simp [access]
      | emit instruction =>
          rw [timeline, List.mem_append, inductionHypothesis,
            instructions_emit]
          constructor
          · intro found
            rcases found with here | ⟨index, other, rfl, found, member⟩
            · obtain ⟨_, member, same⟩ := List.mem_map.mp here
              cases same
              exact ⟨0, instruction, rfl, rfl, member⟩
            · exact ⟨index + 1, other, by omega, found, member⟩
          · intro found
            obtain ⟨index, other, rfl, found, member⟩ := found
            cases index with
            | zero =>
                cases found
                exact Or.inl (List.mem_map.mpr ⟨event, member, rfl⟩)
            | succ index =>
                exact Or.inr ⟨index, other, by omega, found, member⟩

/-- How often an operand is read. -/
theorem count_read_history (operand : Operand) (entries : List Entry) :
    (history operand entries).count .read =
      ((instructions entries).flatMap Instruction.sources).count operand := by
  induction entries with
  | nil =>
      rfl
  | cons entry rest inductionHypothesis =>
      have split :
          history operand (entry :: rest) =
            entry.events operand ++ history operand rest := rfl
      rw [split, List.count_append, inductionHypothesis]
      cases entry with
      | create | place =>
          simp [Entry.events]
      | emit instruction =>
          have writes :
              (if instruction.target? = some operand then
                [Event.write] else []).count .read = 0 := by
            split <;> simp
          rw [instructions_emit, List.flatMap_cons, List.count_append,
            Entry.events, Instruction.events, List.count_append, writes]
          simp

/-- The events of a settled variable are labels, a write, at most one read, and labels
again. -/
theorem exists_split
    {events : List (Event × Nat)}
    (settled : Settled (events.map Prod.fst)) :
    ∃ early definition reads late,
      events = early ++ ((.write, definition) :: (reads ++ late)) ∧
        (∀ event ∈ early, event.1 = .label) ∧
        (∀ event ∈ reads, event.1 = .read) ∧ reads.length ≤ 1 ∧
        ∀ event ∈ late, event.1 = .label := by
  obtain ⟨before, used, after, shape, beforeBare, afterBare, few⟩ := settled
  obtain ⟨early, rest, rfl, rfl, restShape⟩ := List.map_eq_append_iff.mp shape
  obtain ⟨written, rest, rfl, isWrite, restShape⟩ :=
    List.map_eq_cons_iff.mp restShape
  obtain ⟨reads, late, rfl, rfl, rfl⟩ := List.map_eq_append_iff.mp restShape
  obtain ⟨event, definition⟩ := written
  subst isWrite
  refine ⟨early, definition, reads, late, rfl, ?_, ?_, ?_, ?_⟩
  · intro event member
    exact beforeBare _ (List.mem_map_of_mem member)
  · intro event member
    have listed := List.mem_map_of_mem (f := Prod.fst) member
    rcases few with none | one
    · simp [none] at listed
    · simpa [one] using listed
  · rw [← List.length_map Prod.fst]
    rcases few with none | one
    · simp [none]
    · simp [one]
  · intro event member
    exact afterBare _ (List.mem_map_of_mem member)

/-- What a settled variable means in terms of addresses. -/
theorem exists_definition
    {events : List (Event × Nat)} (ordered : events.Pairwise Precedes)
    (settled : Settled (events.map Prod.fst)) :
    ∃ definition,
      (∀ address, (Event.write, address) ∈ events ↔ address = definition) ∧
        (events.map Prod.fst).count .read ≤ 1 ∧
        ∀ use, (Event.read, use) ∈ events →
          definition < use ∧
            ∀ place, (Event.label, place) ∈ events →
              ¬ (definition < place ∧ place ≤ use) := by
  obtain
    ⟨early, definition, reads, late, rfl, isEarly, isRead, few, isLate⟩ :=
    exists_split settled
  simp only [List.pairwise_append, List.pairwise_cons] at ordered
  obtain ⟨_, ⟨fromWrite, _, _, fromRead⟩, fromEarly⟩ := ordered
  refine ⟨definition, ?_, ?_, ?_⟩
  · intro address
    simp only [List.mem_append, List.mem_cons]
    grind
  · have earlyNone : (early.map Prod.fst).count .read = 0 := by
      rw [List.count_eq_zero]
      grind
    have lateNone : (late.map Prod.fst).count .read = 0 := by
      rw [List.count_eq_zero]
      grind
    have readsFew := List.count_le_length (l := reads.map Prod.fst) (a := .read)
    rw [List.length_map] at readsFew
    simp only [List.map_append, List.map_cons, List.count_append,
      List.count_cons, earlyNone, lateNone]
    simp
    omega
  · intro use member
    have inReads : (Event.read, use) ∈ reads := by
      simp only [List.mem_append, List.mem_cons] at member
      grind
    refine ⟨(fromWrite _ (List.mem_append_left _ inReads)).2 (Or.inl rfl), ?_⟩
    intro place placed between
    simp only [List.mem_append, List.mem_cons] at placed
    rcases placed with inEarly | isWrite | inReads | inLate
    · have earlier := (fromEarly _ inEarly _ List.mem_cons_self).1
      simp only at earlier
      omega
    · cases isWrite
    · cases isRead _ inReads
    · have later := (fromRead _ inReads _ inLate).2 (Or.inr ⟨rfl, rfl⟩)
      simp only at later
      omega

/-- Every label that a run places has an event at its address. -/
theorem mem_timeline_of_run
    {before after : Assembly}
    (run : entries.foldlM Assembly.step before = .ok after)
    {label : Label} {place : Nat}
    (found : after.labels.address? label = some place) :
    before.labels.address? label = some place ∨
      (Event.label, place) ∈ timeline operand before.code.size entries := by
  induction entries generalizing before with
  | nil =>
      cases run
      exact Or.inl found
  | cons entry rest inductionHypothesis =>
      rw [List.foldlM_cons] at run
      obtain ⟨middle, first, others⟩ := bind_eq_ok_iff.mp run
      have later := inductionHypothesis others
      cases entry with
      | create =>
          rw [Assembly.step_create first] at later
          simpa [timeline] using later
      | emit instruction =>
          rw [Assembly.step_emit first] at later
          simp only [Array.size_push] at later
          exact later.imp_right (List.mem_append_right _)
      | place other =>
          obtain ⟨labels, placed, rfl⟩ := Assembly.step_place first
          rcases later with known | placedLater
          · by_cases same : label = other
            · subst same
              rw [LabelTable.address?_place_self placed] at known
              cases known
              exact Or.inr List.mem_cons_self
            · rw [LabelTable.address?_place_of_ne placed same] at known
              exact Or.inl known
          · exact Or.inr (List.mem_cons_of_mem _ placedLater)

end Timeline

namespace Program

variable {source : String} {program : Program} {emitted : Assembly}

theorem mem_timeline_of_code
    (assembled :
      Assembly.ofEntries program.labels program.lower = .ok emitted)
    {operand : Operand} {event : Event} (access : event ≠ .label)
    {address : Nat} :
    (event, address) ∈ timeline operand 0 program.lower ↔
      ∃ instruction,
        emitted.guarded.code[address]? = some instruction ∧
          event ∈ instruction.events operand := by
  have notGuard {instruction : Instruction}
      (member : event ∈ instruction.events operand) :
      instruction ≠ .noop := by
    rintro rfl
    cases member
  rw [mem_timeline access]
  constructor
  · intro found
    obtain ⟨index, instruction, rfl, here, member⟩ := found
    rw [← getElem?_guarded assembled (notGuard member)] at here
    exact ⟨instruction, by rwa [Nat.zero_add], member⟩
  · intro found
    obtain ⟨instruction, here, member⟩ := found
    rw [getElem?_guarded assembled (notGuard member)] at here
    exact ⟨address, instruction, (Nat.zero_add _).symm, here, member⟩

theorem count_sources_guarded
    (assembled :
      Assembly.ofEntries program.labels program.lower = .ok emitted)
    (operand : Operand) :
    (emitted.guarded.code.toList.flatMap Instruction.sources).count operand =
      (history operand program.lower).count .read := by
  rw [count_read_history]
  rcases toList_guarded assembled with code | code
  · rw [code]
  · rw [code, List.flatMap_append, List.count_append]
    rfl

/-- A label of the code of a program that was read has an event at its address. -/
theorem mem_timeline_of_address
    (formed : program.WellFormed)
    (assembled :
      Assembly.ofEntries program.labels program.lower = .ok emitted)
    {operand : Operand} {label : Label} {place : Nat}
    (found : emitted.guarded.labels.address? label = some place) :
    (Event.label, place) ∈ timeline operand 0 program.lower := by
  rw [Assembly.labels_guarded] at found
  rcases mem_timeline_of_run assembled found with known | placed
  · simp [formed.labels] at known
  · exact placed

section Temporaries

variable (read : parse source = .ok program)
  (assembled : Assembly.ofEntries program.labels program.lower = .ok emitted)
  (number address : Nat)

include read assembled

theorem writes_temp :
    emitted.guarded.Writes address (Operand.temp number).render ↔
      (Event.write, address) ∈ timeline (.temp number) 0 program.lower := by
  have proper := proper_of_parse read assembled
  have access : Event.write ≠ .label := by decide
  have own : (Operand.temp number).Proper := trivial
  rw [Assembly.writes_render proper own, mem_timeline_of_code assembled access]
  simp only [mem_events_write]

theorem reads_temp :
    emitted.guarded.Reads address (Operand.temp number).render ↔
      (Event.read, address) ∈ timeline (.temp number) 0 program.lower := by
  have proper := proper_of_parse read assembled
  have access : Event.read ≠ .label := by decide
  have own : (Operand.temp number).Proper := trivial
  rw [Assembly.reads_render proper own, mem_timeline_of_code assembled access]
  simp only [mem_events_read]

theorem readCount_temp :
    emitted.guarded.readCount (Operand.temp number).render =
      ((timeline (.temp number) 0 program.lower).map Prod.fst).count .read := by
  have proper := proper_of_parse read assembled
  have own : (Operand.temp number).Proper := trivial
  rw [Assembly.readCount_render proper own, count_sources_guarded assembled,
    map_fst_timeline]

end Temporaries

/-- Temporaries are assigned once and used in place: the code of a program that was
read takes the temporaries from one to `program.temps`.  Each of them is written by
one instruction and read at most once, behind that instruction, with no label behind
the write up to the read.  No identifier of the source has the name of one. -/
theorem temporaries_assigned_once
    (read : parse source = .ok program) :
    ∃ assembly,
      program.assemble = .ok assembly ∧
        (∀ number, 1 ≤ number → number ≤ program.temps →
          ∃ definition,
            (∀ address,
              assembly.Writes address (Operand.temp number).render ↔
                address = definition) ∧
              assembly.readCount (Operand.temp number).render ≤ 1 ∧
              ∀ use, assembly.Reads use (Operand.temp number).render →
                definition < use ∧
                  ∀ label place,
                    assembly.labels.address? label = some place →
                      ¬ (definition < place ∧ place ≤ use)) ∧
        (∀ number, number = 0 ∨ program.temps < number →
          ∀ address,
            ¬ assembly.Writes address (Operand.temp number).render ∧
              ¬ assembly.Reads address (Operand.temp number).render) ∧
        ∀ token ∈ (Token.Stream.ofString source).tokens,
          token.kind = .identifier →
            ∀ number, token.payload ≠ (Operand.temp number).render := by
  have formed := wellFormed_of_parse read
  obtain ⟨emitted, assembled⟩ := exists_ofEntries formed
  have tidy := tidy_lower program
  refine ⟨emitted.guarded, assemble_eq assembled, ?_, ?_, ?_⟩
  · intro number positive within
    have settled := tidy.inside number positive within
    have ordered := pairwise_timeline (.temp number) 0 program.lower
    rw [← map_fst_timeline _ 0] at settled
    obtain ⟨definition, once, few, used⟩ := exists_definition ordered settled
    refine ⟨definition, ?_, ?_, ?_⟩
    · intro address
      rw [writes_temp read assembled]
      exact once address
    · rw [readCount_temp read assembled]
      exact few
    · intro use member
      rw [reads_temp read assembled] at member
      have behind := used use member
      refine ⟨behind.1, fun label place found => ?_⟩
      exact behind.2 place (mem_timeline_of_address formed assembled found)
  · intro number away address
    have bare := tidy.outside number (by omega)
    rw [← map_fst_timeline _ 0] at bare
    rw [writes_temp read assembled, reads_temp read assembled]
    constructor
    · intro member
      cases bare _ (List.mem_map_of_mem member)
    · intro member
      cases bare _ (List.mem_map_of_mem member)
  · intro token member identifier number
    exact
      identifier_ne_render member identifier (Operand.dollared_temp number)

/-- The temporary of the sum is the first one and is written last. -/
theorem temporaries_assigned_once_of_nested_calls :
    ∃ program assembly definition,
      parse "def f(a) { return a * a; }\nx[f(f(2)) + y] = 1;" = .ok program ∧
        program.temps = 4 ∧ program.assemble = .ok assembly ∧
        (∀ address, assembly.Writes address "$tmp$1" ↔ address = definition) ∧
        assembly.readCount "$tmp$1" ≤ 1 := by
  obtain ⟨program, read, taken⟩ :=
    exists_of_accepted
      (show ((parse
          "def f(a) { return a * a; }\nx[f(f(2)) + y] = 1;").toOption.any
            fun program => decide (program.temps = 4)) = true by
        decide +kernel)
  have taken : program.temps = 4 := of_decide_eq_true taken
  obtain ⟨assembly, assembled, assigned, _⟩ := temporaries_assigned_once read
  obtain ⟨definition, once, few, _⟩ :=
    assigned 1 (Nat.le_refl _) (by omega)
  exact ⟨program, assembly, definition, read, taken, assembled, once, few⟩

end Program

example :
    (compile "def f(a) { return a * a; }\nx[f(f(2)) + y] = 1;").toOption =
      some
        ("set $tmp$4 2\nset a $tmp$4\nop add $ra$f @counter 1\n" ++
          "jump 12 always\nset $tmp$3 $ret$f\nset a $tmp$3\n" ++
          "op add $ra$f @counter 1\njump 12 always\nset $tmp$2 $ret$f\n" ++
          "op add $tmp$1 $tmp$2 y\nwrite 1 x $tmp$1\nend\n" ++
          "op mul $ret$f a a\nset @counter $ra$f\n") := by
  decide +kernel

end FlatCode
