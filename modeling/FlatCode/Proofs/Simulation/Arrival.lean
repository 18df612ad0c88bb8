import FlatCode.Proofs.Layout.Assembly
import FlatCode.Proofs.Simulation.Leads

/-!
# The machine at a given address

A simulation says where the machine is when code has ended, and not whether it was
there before.  To speak of the state in which the machine comes to an address for
the first time, the instruction at that address is replaced by the one that stops the
machine.  Up to then both machines take the same steps, and the second one stops
there: `Target.ComesTo.exists_answer`.
-/

namespace FlatCode

open Entry

/-- An assembly that stops the machine at an address. -/
def Assembly.haltAt (assembly : Assembly) (address : Nat) : Assembly :=
  { assembly with code := assembly.code.setIfInBounds address .halt }

namespace Assembly

variable {assembly : Assembly} {address : Nat}

theorem getElem?_haltAt {other : Nat} (different : other ≠ address) :
    (assembly.haltAt address).code[other]? = assembly.code[other]? :=
  Array.getElem?_setIfInBounds_ne different.symm

theorem stops_haltAt (assembly : Assembly) (address : Nat) :
    (assembly.haltAt address).Stops address := by
  rw [Stops, haltAt, Array.getElem?_setIfInBounds_self]
  by_cases inside : address < assembly.code.size
  · rw [if_pos inside]
    exact Or.inr rfl
  · rw [if_neg inside]
    exact Or.inl rfl

theorem mem_of_mem_haltAt
    {instruction : Instruction}
    (member : instruction ∈ (assembly.haltAt address).code) :
    instruction = .halt ∨ instruction ∈ assembly.code := by
  obtain ⟨place, here⟩ := Array.getElem?_of_mem member
  by_cases same : place = address
  · subst same
    have stops := stops_haltAt assembly place
    rw [Stops, here] at stops
    rcases stops with nothing | halt
    · cases nothing
    · exact Or.inl (Option.some.inj halt)
  · rw [getElem?_haltAt same] at here
    exact Or.inr (Array.mem_of_getElem? here)

/-- Code that does not contain the address is still there. -/
theorem Carries.haltAt
    {start : Nat} {entries : List Entry}
    (carries : assembly.Carries start entries)
    (outside : address < start ∨ start + width entries ≤ address) :
    (assembly.haltAt address).Carries start entries := by
  induction entries generalizing start with
  | nil =>
      trivial
  | cons entry rest inductionHypothesis =>
      cases entry with
      | create =>
          exact inductionHypothesis carries outside
      | place label =>
          exact ⟨carries.1, inductionHypothesis carries.2 outside⟩
      | emit instruction =>
          rw [width_emit] at outside
          refine ⟨?_, inductionHypothesis carries.2 (by omega)⟩
          rw [getElem?_haltAt (by omega)]
          exact carries.1

end Assembly

namespace Target

variable {Name Value Memory Answer : Type} [DecidableEq Name]
  [DecidableEq Value] {target : Target Value Memory}
  {name : Operand → Name} {assembly : Assembly} {address : Nat}
  {before after : State Name Value Memory}

variable (target name assembly address) in
/-- The machine comes to an address, and was not there before. -/
inductive ComesTo :
    State Name Value Memory → State Name Value Memory → Prop
  | here {state : State Name Value Memory} :
      state.counter = address → ComesTo state state
  | step {state next after : State Name Value Memory} :
      state.counter ≠ address →
        target.step name assembly state = some next →
          ComesTo next after → ComesTo state after

theorem step_haltAt (away : before.counter ≠ address) :
    target.step name (assembly.haltAt address) before =
      target.step name assembly before := by
  rw [step, step, Assembly.getElem?_haltAt away]
  rfl

/-- A machine that was stopped at an address has come there. -/
theorem comesTo_of_steps
    {count : Nat}
    (run :
      target.steps name (assembly.haltAt address) count before = some after)
    (arrived : after.counter = address) :
    target.ComesTo name assembly address before after := by
  induction count generalizing before with
  | zero =>
      cases run
      exact .here arrived
  | succ count inductionHypothesis =>
      obtain ⟨next, stepped, rest⟩ := Option.bind_eq_some_iff.mp run
      have away : before.counter ≠ address := by
        intro there
        have stops : (assembly.haltAt address).Stops before.counter :=
          there ▸ Assembly.stops_haltAt assembly address
        rw [step_of_stops stops] at stepped
        cases stepped
      rw [step_haltAt away] at stepped
      exact .step away stepped (inductionHypothesis rest)

namespace ComesTo

theorem counter (comes : target.ComesTo name assembly address before after) :
    after.counter = address := by
  induction comes with
  | here arrived =>
      exact arrived
  | step _ _ _ inductionHypothesis =>
      exact inductionHypothesis

/-- Where the machine comes to, it stops if it is made to. -/
theorem halts (comes : target.ComesTo name assembly address before after) :
    target.Halts name (assembly.haltAt address) before after := by
  refine ⟨?_, comes.counter ▸ Assembly.stops_haltAt assembly address⟩
  induction comes with
  | here =>
      exact ⟨0, rfl⟩
  | step away stepped _ inductionHypothesis =>
      obtain ⟨count, run⟩ := inductionHypothesis
      refine ⟨count + 1, ?_⟩
      rw [steps, step_haltAt away, stepped]
      exact run

/-- A machine that comes to an address is in the state in which an execution has left
it, whenever the bound of the execution is large enough. -/
theorem exists_answer
    {follows : Nat → Option Answer}
    {holds : Answer → State Name Value Memory → Prop}
    (comes : target.ComesTo name assembly address before after)
    (leads : ∀ fuel, ∃ seen,
      Leads target name (assembly.haltAt address) fuel before seen (follows fuel)
        fun result last => last.counter = address ∧ holds result last) :
    ∃ bound, ∀ fuel, bound ≤ fuel →
      ∃ result, follows fuel = some result ∧ holds result after := by
  obtain ⟨bound, answers⟩ := comes.halts.exists_answer leads
  refine ⟨bound, fun fuel fits => ?_⟩
  obtain ⟨result, answer⟩ := answers fuel fits
  obtain ⟨seen, followed⟩ := leads fuel
  rw [answer] at followed
  obtain ⟨last, passes, arrived, holding⟩ := followed
  have stops : (assembly.haltAt address).Stops last.counter :=
    arrived ▸ Assembly.stops_haltAt assembly address
  have same : after = last :=
    Target.Halts.unique ⟨passes.exists_steps, stops⟩ comes.halts
  exact ⟨result, answer, same ▸ holding⟩

end ComesTo

end Target

end FlatCode
