import FlatCode.Proofs.Placement
import FlatCode.Proofs.Simulation.Observe

/-!
# Names of variables

The machine tells variables apart by their texts.  A word of the source does not
start with a dollar sign and the variables of code's own do, with another
beginning for each family.  So different operands have different texts, and a
machine with one variable for each operand runs in step with the machine that has
one for each text.
-/

namespace FlatCode

open Entry

namespace Operand

/-- An operand that code can have: no word looks like a variable of code's own. -/
def Proper : Operand → Prop
  | .word text => Undollared text
  | .temp _ | .resume _ | .result _ => True

instance : DecidablePred Proper
  | .word text => inferInstanceAs (Decidable (Undollared text))
  | .temp _ | .resume _ | .result _ => inferInstanceAs (Decidable True)

theorem eq_of_render_word
    {text : String} {operand : Operand} (undollared : Undollared text)
    (same : text = operand.render) :
    Operand.word text = operand := by
  subst same
  cases operand with
  | word other =>
      rfl
  | temp number =>
      exact absurd undollared (dollared_temp number)
  | resume function =>
      exact absurd undollared (dollared_resume function)
  | result function =>
      exact absurd undollared (dollared_result function)

theorem eq_of_render_temp
    {number : Nat} {operand : Operand} (proper : operand.Proper)
    (same : (Operand.temp number).render = operand.render) :
    Operand.temp number = operand := by
  cases operand with
  | word text =>
      exact (eq_of_render_word proper same.symm).symm
  | temp other =>
      have digits : toString number = toString other :=
        (String.append_right_inj "$tmp$").mp same
      have numbers : number = other := by
        have values :=
          congrArg (fun text => Nat.ofDigitChars 10 text.toList 0) digits
        simpa [Nat.toString_eq_repr] using values
      rw [numbers]
  | resume function | result function =>
      have characters := congrArg String.toList same
      simp [render, String.toList_append] at characters

theorem eq_of_render_resume
    {function : String} {operand : Operand} (proper : operand.Proper)
    (same : (Operand.resume function).render = operand.render) :
    Operand.resume function = operand := by
  cases operand with
  | word text =>
      exact (eq_of_render_word proper same.symm).symm
  | resume other =>
      rw [(String.append_right_inj "$ra$").mp same]
  | temp number | result other =>
      have characters := congrArg String.toList same
      simp [render, String.toList_append] at characters

theorem eq_of_render_result
    {function : String} {operand : Operand} (proper : operand.Proper)
    (same : (Operand.result function).render = operand.render) :
    Operand.result function = operand := by
  cases operand with
  | word text =>
      exact (eq_of_render_word proper same.symm).symm
  | result other =>
      rw [(String.append_right_inj "$ret$").mp same]
  | temp number | resume other =>
      have characters := congrArg String.toList same
      simp [render, String.toList_append] at characters

/-- Different operands have different texts. -/
theorem render_inj
    {first second : Operand} (firstProper : first.Proper)
    (secondProper : second.Proper) :
    first.render = second.render ↔ first = second := by
  refine ⟨fun same => ?_, congrArg render⟩
  cases first with
  | word text =>
      exact eq_of_render_word firstProper same
  | temp number =>
      exact eq_of_render_temp secondProper same
  | resume function =>
      exact eq_of_render_resume secondProper same
  | result function =>
      exact eq_of_render_result secondProper same

end Operand

/-! ## Operands of programs -/

namespace Program

variable {program : Program} {emitted : Assembly}

theorem admits_plainParts
    (functions : List Callee) (function : Option String) :
    (plainParts functions function).Admits functions Operand.Proper
      fun _ => False where
  name _ plain := plain.1
  resume _ _ := trivial
  result _ _ := trivial
  raw _ raw := raw
  value _ plain :=
    ⟨plain.linked, fun word member => (plain.words word member).1⟩
  condition _ plain :=
    ⟨plain.linked, fun word member => (plain.words word member).1⟩

theorem allowsCode_proper : AllowsCode Operand.Proper [] :=
  { temp := fun _ => trivial
    result := nofun
    param := nofun
    resume := nofun
    counter := by decide
    zero := by decide
    one := by decide }

theorem proper_code
    (plain : program.Plain)
    (assembled :
      Assembly.ofEntries program.labels program.lower = .ok emitted) :
    ∀ instruction ∈ emitted.guarded.code,
      instruction = .noop ∨
        instruction.Aims (· ∈ placed program.lower) Operand.Proper
          fun _ => False := by
  intro instruction member
  rcases mem_of_mem_guarded member with guard | member
  · exact Or.inl guard
  · rw [Assembly.code_of_run assembled] at member
    refine Or.inr ?_
    exact
      aims_lower admits_plainParts (fun _ _ => rfl) allowsCode_proper plain
        instruction
        (by simpa using member)

end Program

/-! ## Machines in step -/

variable {Value Memory : Type}

/-- A machine with one variable for each operand agrees with one that has a
variable for each text. -/
structure Alike
    (machine : Machine Value Memory) (state : State String Value Memory) :
    Prop where
  counter : machine.counter = state.counter
  memory : machine.memory = state.memory
  values :
    ∀ operand : Operand, operand.Proper →
      machine.values operand = state.values operand.render

namespace Alike

variable {target : Target Value Memory} {machine : Machine Value Memory}
  {state : State String Value Memory} {operand : Operand}

theorem goTo (alike : Alike machine state) (address : Nat) :
    Alike (machine.goTo address) (state.goTo address) :=
  ⟨rfl, alike.memory, alike.values⟩

theorem next (alike : Alike machine state) : Alike machine.next state.next :=
  ⟨congrArg Nat.succ alike.counter, alike.memory, alike.values⟩

theorem assign
    (alike : Alike machine state) (proper : operand.Proper) (value : Value) :
    Alike (machine.assign operand value)
      (state.assign operand.render value) := by
  refine ⟨alike.counter, alike.memory, fun other otherProper => ?_⟩
  simp only [State.assign, Operand.render_inj otherProper proper]
  split
  · rfl
  · exact alike.values other otherProper

theorem value_eq (alike : Alike machine state) (proper : operand.Proper) :
    target.value id machine operand =
      target.value Operand.render state operand := by
  rw [Target.value, Target.value, alike.counter]
  rw [show machine.values (id operand) = _ from
    alike.values operand proper]

theorem put
    (alike : Alike machine state) (proper : operand.Proper) (value : Value) :
    Option.Rel Alike (target.put id machine operand value)
      (target.put Operand.render state operand value) := by
  unfold Target.put
  split
  · cases target.counter? value with
    | none =>
        exact .none
    | some address =>
        exact .some (alike.goTo address)
  · exact .some (alike.next.assign proper value)

variable [DecidableEq Value] {assembly : Assembly} {known : Label → Prop}
  {fit : String → Prop}

theorem taken_eq
    (alike : Alike machine state) {label : Label} {condition : Condition}
    (aims : (Instruction.jump label condition).Aims known Operand.Proper fit) :
    target.taken id machine condition =
      target.taken Operand.render state condition := by
  cases condition with
  | always =>
      rfl
  | compare operator lhs rhs =>
      rw [Target.taken, Target.taken, alike.value_eq aims.2.1,
        alike.value_eq aims.2.2]

theorem perform
    (alike : Alike machine state) {instruction : Instruction}
    (aims : instruction.Aims known Operand.Proper fit) :
    Option.Rel Alike (target.perform id assembly machine instruction)
      (target.perform Operand.render assembly state instruction) := by
  cases instruction with
  | set result value =>
      rw [Target.perform, Target.perform, alike.value_eq aims.2]
      exact alike.put aims.1 _
  | op operator result lhs rhs =>
      rw [Target.perform, Target.perform, alike.value_eq aims.2.1,
        alike.value_eq aims.2.2]
      exact alike.put aims.1 _
  | jump label condition =>
      rw [Target.perform, Target.perform, alike.taken_eq aims]
      split
      · cases assembly.labels.address? label with
        | none =>
            exact .none
        | some address =>
            exact .some (alike.goTo address)
      · exact .some alike.next
  | read result cell index =>
      rw [Target.perform, Target.perform, alike.value_eq aims.2.1,
        alike.value_eq aims.2.2, alike.memory]
      exact alike.put aims.1 _
  | write value cell index =>
      rw [Target.perform, Target.perform, alike.value_eq aims.1,
        alike.value_eq aims.2.1, alike.value_eq aims.2.2, alike.memory]
      exact .some ⟨alike.next.counter, rfl, alike.values⟩
  | raw | halt =>
      exact .none
  | noop =>
      exact aims.elim

variable {inner : Machine Value Memory}

theorem step
    (alike : Alike machine state)
    (aims : ∀ instruction ∈ assembly.code,
      instruction = .noop ∨ instruction.Aims known Operand.Proper fit)
    (stepped : target.step id assembly machine = some inner) :
    ∃ after,
      target.step Operand.render assembly state = some after ∧
        Alike inner after := by
  have related :
      Option.Rel Alike (target.step id assembly machine)
        (target.step Operand.render assembly state) := by
    rw [Target.step, Target.step, alike.counter]
    cases here : assembly.code[state.counter]? with
    | none =>
        exact .none
    | some instruction =>
        rcases aims instruction (Array.mem_of_getElem? here) with rfl | aims
        · exact .some alike.next
        · exact alike.perform aims
  rw [stepped] at related
  generalize target.step Operand.render assembly state = result at related ⊢
  cases related with
  | some innerAlike =>
      exact ⟨_, rfl, innerAlike⟩

theorem steps
    (alike : Alike machine state)
    (aims : ∀ instruction ∈ assembly.code,
      instruction = .noop ∨ instruction.Aims known Operand.Proper fit)
    {count : Nat} (run : target.steps id assembly count machine = some inner) :
    ∃ after,
      target.steps Operand.render assembly count state = some after ∧
        Alike inner after := by
  induction count generalizing machine state with
  | zero =>
      cases run
      exact ⟨state, rfl, alike⟩
  | succ count inductionHypothesis =>
      obtain ⟨next, stepped, rest⟩ := Option.bind_eq_some_iff.mp run
      obtain ⟨between, moved, nextAlike⟩ := alike.step aims stepped
      obtain ⟨after, reached, innerAlike⟩ := inductionHypothesis nextAlike rest
      refine ⟨after, ?_, innerAlike⟩
      rw [Target.steps, moved]
      exact reached

omit [DecidableEq Value] in
theorem shows
    {store : Store Value Memory} (alike : Alike machine state)
    (shown : Target.Shows id store machine) :
    Target.Shows Operand.render store state where
  values text undollared :=
    (alike.values (.word text) undollared).symm.trans
      (shown.values text undollared)
  results function :=
    (alike.values (.result function) trivial).symm.trans
      (shown.results function)
  memory := alike.memory.symm.trans shown.memory

theorem passes
    {seen : List (Store Value Memory)} (alike : Alike machine state)
    (aims : ∀ instruction ∈ assembly.code,
      instruction = .noop ∨ instruction.Aims known Operand.Proper fit)
    (shown : target.Passes id assembly (Target.Shows id) seen machine inner) :
    ∃ after,
      target.Passes Operand.render assembly (Target.Shows Operand.render) seen
          state after ∧
        Alike inner after := by
  induction seen generalizing machine state with
  | nil =>
      obtain ⟨count, run⟩ := shown
      obtain ⟨after, reached, innerAlike⟩ := alike.steps aims run
      exact ⟨after, ⟨count, reached⟩, innerAlike⟩
  | cons store stores inductionHypothesis =>
      obtain ⟨count, between, run, standing, rest⟩ := shown
      obtain ⟨middle, reached, betweenAlike⟩ := alike.steps aims run
      obtain ⟨after, others, innerAlike⟩ :=
        inductionHypothesis betweenAlike rest
      exact
        ⟨after, ⟨count, middle, reached, betweenAlike.shows standing, others⟩,
          innerAlike⟩

/-- What the machine does with one variable for each operand, it does with one
for each text. -/
theorem leads
    {Answer : Type} {fuel : Nat} {seen : List (Store Value Memory)}
    {answer : Option Answer}
    {holds : Answer → Machine Value Memory → Prop}
    (alike : Alike machine state)
    (aims : ∀ instruction ∈ assembly.code,
      instruction = .noop ∨ instruction.Aims known Operand.Proper fit)
    (follows : Leads target id assembly fuel machine seen answer holds) :
    Leads target Operand.render assembly fuel state seen answer
      fun result after => ∃ inner, Alike inner after ∧ holds result inner := by
  cases answer with
  | none =>
      obtain ⟨⟨last, passes⟩, inner, run⟩ := follows
      obtain ⟨shown, more, _⟩ := alike.passes aims passes
      obtain ⟨after, reached, _⟩ := alike.steps aims run
      exact ⟨⟨shown, more⟩, after, reached⟩
  | some result =>
      obtain ⟨inner, passes, holding⟩ := follows
      obtain ⟨after, reached, innerAlike⟩ := alike.passes aims passes
      exact ⟨after, reached, inner, innerAlike, holding⟩

end Alike

/-! ## What a machine shows -/

/-- The machine holds what execution works on: variables under their names, the
results of functions and the memory. -/
structure Agrees
    (store : Store Value Memory) (state : State String Value Memory) :
    Prop where
  values :
    ∀ name, Undollared name → state.values name = store.values name
  results :
    ∀ function,
      state.values (Operand.result function).render = store.results function
  memory : state.memory = store.memory

namespace Agrees

variable {store : Store Value Memory} {state : State String Value Memory}

/-- The machine with one variable for each operand that agrees with a store and a
machine with one for each text. -/
def machine
    (store : Store Value Memory) (state : State String Value Memory) :
    Machine Value Memory where
  counter := state.counter
  values
    | .word name => store.values name
    | operand => state.values operand.render
  memory := state.memory

theorem alike (agrees : Agrees store state) :
    Alike (machine store state) state := by
  refine ⟨rfl, rfl, fun operand proper => ?_⟩
  cases operand with
  | word name =>
      exact (agrees.values name proper).symm
  | temp | resume | result =>
      rfl

theorem observe_machine (agrees : Agrees store state) :
    observe (machine store state) = store := by
  cases store with
  | mk values results memory =>
      have sameResults := funext agrees.results
      have sameMemory := agrees.memory
      simp only at sameResults sameMemory
      simp only [observe, machine, sameMemory, Store.mk.injEq, true_and,
        and_true]
      exact sameResults

theorem of_shows (shown : Target.Shows Operand.render store state) :
    Agrees store state :=
  ⟨shown.values, shown.results, shown.memory⟩

theorem of_alike
    {inner : Machine Value Memory} (alike : Alike inner state) :
    Agrees (observe inner) state :=
  ⟨fun name undollared => (alike.values (.word name) undollared).symm,
    fun function => (alike.values (.result function) trivial).symm,
    alike.memory.symm⟩

end Agrees

end FlatCode
