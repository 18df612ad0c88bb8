import FlatCode.Proofs.Layout.Assembly
import FlatCode.Proofs.Simulation.Leads

/-!
# What execution sees of the machine

Here every operand is a variable of its own.  Execution sees the words, the
results of functions and the memory: `observe`.  The remaining variables are
temporaries and the addresses at which callers go on.  Code leaves some of them
alone, and a `Frame` says which ones:

* of the temporaries, those outside of the range that the code takes;
* of both kinds, only those that the functions it calls leave alone as well,
  which is a parameter `Kept`.
-/

namespace FlatCode

variable {Value Memory : Type}

abbrev Machine (Value Memory : Type) : Type :=
  State Operand Value Memory

/-- The part of a machine state that execution works on. -/
def observe (state : Machine Value Memory) : Store Value Memory where
  values name := state.values (.word name)
  results function := state.values (.result function)
  memory := state.memory

theorem shows_of_observe
    {store : Store Value Memory} {state : Machine Value Memory}
    (observed : observe state = store) :
    Target.Shows id store state := by
  subst observed
  exact ⟨fun _ _ => rfl, fun _ => rfl, rfl⟩

/-- Write an operand, unless it is the one that is never written. -/
def State.store
    (state : Machine Value Memory) (operand : Operand) (value : Value) :
    Machine Value Memory :=
  if operand = .discard then state else state.assign operand value

section Observe

variable (state : Machine Value Memory) (value : Value)

@[simp]
theorem observe_goTo (address : Nat) :
    observe (state.goTo address) = observe state := rfl

@[simp]
theorem observe_next : observe state.next = observe state := rfl

@[simp]
theorem observe_assign_temp (number : Nat) :
    observe (state.assign (.temp number) value) = observe state := by
  simp [observe, State.assign]

@[simp]
theorem observe_assign_resume (function : String) :
    observe (state.assign (.resume function) value) = observe state := by
  simp [observe, State.assign]

@[simp]
theorem observe_assign_word (name : String) :
    observe (state.assign (.word name) value) =
      (observe state).assign name value := by
  simp [observe, State.assign, Store.assign]

@[simp]
theorem observe_store_result (function : String) :
    observe (state.store (.result function) value) =
      (observe state).record function value := by
  simp [State.store, Operand.discard, observe, State.assign, Store.record]

theorem observe_store_word (name : String) :
    observe (state.store (.word name) value) =
      if name = "_" then
        observe state
      else
        (observe state).assign name value := by
  by_cases discarded : name = "_"
  · subst discarded
    rfl
  · have kept : Operand.word name ≠ .discard := fun same =>
      discarded (Operand.word.inj same)
    rw [State.store, if_neg kept, if_neg discarded, observe_assign_word]

end Observe

/-! ## Values of operands -/

namespace Operand

theorem dollared_temp (number : Nat) :
    ¬ Undollared (Operand.temp number).render := by
  simp [Undollared, render, String.toList_append]

theorem dollared_resume (function : String) :
    ¬ Undollared (Operand.resume function).render := by
  simp [Undollared, render, String.toList_append]

theorem dollared_result (function : String) :
    ¬ Undollared (Operand.result function).render := by
  simp [Undollared, render, String.toList_append]

theorem render_ne_counter
    {operand : Operand} (dollared : ¬ Undollared operand.render) :
    operand.render ≠ "@counter" := by
  intro same
  rw [same] at dollared
  exact dollared (by decide)

end Operand

section Values

variable {target : Target Value Memory}

theorem Target.value_of_dollared
    (state : Machine Value Memory) {operand : Operand}
    (dollared : ¬ Undollared operand.render) :
    target.value id state operand = state.values operand := by
  rw [Target.value, if_neg (Operand.render_ne_counter dollared),
    target.literal_dollar _ dollared]
  rfl

theorem Target.value_word
    (state : Machine Value Memory) {text : String} (plain : PlainWord text) :
    target.value id state (.word text) = target.read (observe state) text := by
  unfold Target.value
  exact if_neg plain.2

theorem Target.value_counter (state : Machine Value Memory) :
    target.value id state .counter = target.address (state.counter + 1) := by
  unfold Target.value
  exact if_pos rfl

theorem Target.put_of_ne
    (state : Machine Value Memory) {operand : Operand}
    (uncounted : operand.render ≠ "@counter") (value : Value) :
    target.put id state operand value =
      some (state.next.assign operand value) := by
  rw [Target.put, if_neg uncounted]
  rfl

variable [DecidableEq Value]

theorem Target.step_of_perform
    {assembly : Assembly} {state : Machine Value Memory}
    {instruction : Instruction}
    (here : assembly.code[state.counter]? = some instruction) :
    target.step id assembly state =
      target.perform id assembly state instruction := by
  rw [Target.step, here, Option.bind_some]

theorem Target.step_of_always
    {assembly : Assembly} {state : Machine Value Memory} {label : Label}
    {place : Nat}
    (here : assembly.code[state.counter]? = some (.jump label .always))
    (placed : assembly.labels.address? label = some place) :
    target.step id assembly state = some (state.goTo place) := by
  rw [Target.step_of_perform here, Target.perform, Target.taken, if_pos rfl,
    placed]
  rfl

theorem Target.step_of_leave
    {assembly : Assembly} {state : Machine Value Memory} {function : String}
    {back : Nat}
    (here :
      assembly.code[state.counter]? =
        some (.set .counter (.resume function)))
    (recorded : state.values (.resume function) = target.address back) :
    target.step id assembly state = some (state.goTo back) := by
  rw [Target.step_of_perform here, Target.perform,
    Target.value_of_dollared state (Operand.dollared_resume function),
    recorded, Target.put, if_pos (by decide), target.counter_address]
  rfl

/-- The last instruction of expression code stores a value, unless it is left
out. -/
theorem leads_storing
    {Answer : Type} {assembly : Assembly} {fuel start : Nat}
    {state : Machine Value Memory} {operand : Operand} {value : Value}
    {instruction : Instruction} {result : Answer}
    {holds : Answer → Machine Value Memory → Prop}
    (carries :
      assembly.Carries start (emitAll (storing operand instruction)))
    (here : state.counter = start)
    (uncounted : operand.render ≠ "@counter")
    (performs :
      target.perform id assembly state instruction =
        target.put id state operand value)
    (holding :
      holds result
        ((state.store operand value).goTo
          (start + (storing operand instruction).length))) :
    Leads target id assembly fuel state [] (some result) holds := by
  by_cases discarded : operand = .discard
  · rw [storing, if_pos discarded, State.store, if_pos discarded] at holding
    have same : state.goTo start = state := by
      cases here
      rfl
    rw [List.length_nil, Nat.add_zero, same] at holding
    exact Leads.here holding
  · rw [storing, if_neg discarded] at carries
    rw [storing, if_neg discarded, State.store, if_neg discarded] at holding
    have stepped :
        target.step id assembly state =
          some (state.next.assign operand value) := by
      rw [Target.step_of_perform (here ▸ carries.1), performs,
        Target.put_of_ne state uncounted]
    have same :
        (state.assign operand value).goTo (start + [instruction].length) =
          state.next.assign operand value := by
      cases here
      rfl
    rw [same] at holding
    exact (Leads.here holding).stepped stepped

end Values

/-! ## Frames -/

/-- The temporaries and return addresses that no called function touches. -/
structure Kept where
  temp : Nat → Prop
  resume : String → Prop

/-- Code that takes the temporaries between two numbers leaves all others alone,
as far as they are kept. -/
structure Frame
    (kept : Kept) (low high : Nat) (before after : Machine Value Memory) :
    Prop where
  temp :
    ∀ number, kept.temp number → number ≤ low ∨ high < number →
      after.values (.temp number) = before.values (.temp number)
  resume :
    ∀ function, kept.resume function →
      after.values (.resume function) = before.values (.resume function)

namespace Frame

variable {kept : Kept} {low middle high : Nat}
  {before between after : Machine Value Memory}

theorem refl (state : Machine Value Memory) : Frame kept low high state state :=
  ⟨fun _ _ _ => rfl, fun _ _ => rfl⟩

theorem widen
    {bottom top : Nat} (frame : Frame kept low high before after)
    (below : bottom ≤ low) (above : high ≤ top) :
    Frame kept bottom top before after :=
  ⟨fun number isKept outside => frame.temp number isKept (by omega),
    frame.resume⟩

/-- Code that takes no temporary at all. -/
theorem of_whole (frame : Frame kept 0 0 before after) :
    Frame kept low high before after :=
  ⟨fun number isKept _ => frame.temp number isKept (by omega), frame.resume⟩

theorem trans
    (first : Frame kept low high before between)
    (second : Frame kept low high between after) :
    Frame kept low high before after :=
  ⟨fun number isKept outside =>
      (second.temp number isKept outside).trans
        (first.temp number isKept outside),
    fun function isKept =>
      (second.resume function isKept).trans (first.resume function isKept)⟩

/-- Code that takes one range of temporaries after the other. -/
theorem append
    (first : Frame kept low middle before between)
    (second : Frame kept middle high between after)
    (below : low ≤ middle) (above : middle ≤ high) :
    Frame kept low high before after :=
  (first.widen (Nat.le_refl low) above).trans
    (second.widen below (Nat.le_refl high))

theorem goTo
    (frame : Frame kept low high before after) (address : Nat) :
    Frame kept low high before (after.goTo address) :=
  ⟨frame.temp, frame.resume⟩

theorem assign_temp
    {number : Nat} (inside : low < number ∧ number ≤ high) (value : Value)
    (frame : Frame kept low high before after) :
    Frame kept low high before (after.assign (.temp number) value) := by
  refine ⟨fun other isKept outside => ?_, fun function isKept => ?_⟩
  · have different : other ≠ number := by omega
    rw [← frame.temp other isKept outside]
    simp [State.assign, different]
  · rw [← frame.resume function isKept]
    simp [State.assign]

theorem assign_word
    (name : String) (value : Value)
    (frame : Frame kept low high before after) :
    Frame kept low high before (after.assign (.word name) value) := by
  refine ⟨fun other isKept outside => ?_, fun function isKept => ?_⟩
  · rw [← frame.temp other isKept outside]
    simp [State.assign]
  · rw [← frame.resume function isKept]
    simp [State.assign]

theorem store_word
    (name : String) (value : Value)
    (frame : Frame kept low high before after) :
    Frame kept low high before (after.store (.word name) value) := by
  unfold State.store
  split
  · exact frame
  · exact frame.assign_word name value

theorem store_result
    (function : String) (value : Value)
    (frame : Frame kept low high before after) :
    Frame kept low high before (after.store (.result function) value) := by
  have written : Operand.result function ≠ .discard := nofun
  rw [State.store, if_neg written]
  refine ⟨fun other isKept outside => ?_, fun other isKept => ?_⟩
  · rw [← frame.temp other isKept outside]
    simp [State.assign]
  · rw [← frame.resume other isKept]
    simp [State.assign]

theorem assign_resume
    {function : String} (touched : ¬ kept.resume function) (value : Value)
    (frame : Frame kept low high before after) :
    Frame kept low high before (after.assign (.resume function) value) := by
  refine ⟨fun other isKept outside => ?_, fun other isKept => ?_⟩
  · rw [← frame.temp other isKept outside]
    simp [State.assign]
  · have different : other ≠ function := by
      rintro rfl
      exact touched isKept
    rw [← frame.resume other isKept]
    simp [State.assign, different]

end Frame

end FlatCode
