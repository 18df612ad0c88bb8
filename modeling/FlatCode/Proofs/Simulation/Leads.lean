import FlatCode.Proofs.Semantics.Trace

/-!
# Runs of the machine that follow an execution

`Leads fuel state seen answer holds` joins both directions of a simulation.  Where
execution has an answer, the machine comes from the state to one in which `holds`
is true of the answer.  Where execution has none, because its bound is too small,
the machine goes on for at least `fuel` steps.  In both cases it first shows the
stores `seen` that execution has on the way.
-/

namespace FlatCode

section Leads

variable {Name Value Memory Answer Later : Type} [DecidableEq Name]
  [DecidableEq Value] {target : Target Value Memory}
  {name : Operand → Name} {assembly : Assembly}
  {state middle after : State Name Value Memory}

theorem Target.steps_add
    {first second : Nat}
    (before : target.steps name assembly first state = some middle) :
    target.steps name assembly (first + second) state =
      target.steps name assembly second middle := by
  induction first generalizing state with
  | zero =>
      cases before
      rw [Nat.zero_add]
  | succ first inductionHypothesis =>
      obtain ⟨next, stepped, rest⟩ := Option.bind_eq_some_iff.mp before
      rw [Nat.add_right_comm, Target.steps, stepped]
      exact inductionHypothesis rest

theorem Target.steps_of_le
    {count fewer : Nat} (fits : fewer ≤ count)
    (run : target.steps name assembly count state = some after) :
    ∃ earlier, target.steps name assembly fewer state = some earlier := by
  induction fewer generalizing count state with
  | zero =>
      exact ⟨state, rfl⟩
  | succ fewer inductionHypothesis =>
      obtain ⟨rest, rfl⟩ : ∃ rest, count = rest + 1 :=
        ⟨count - 1, by omega⟩
      obtain ⟨next, stepped, later⟩ := Option.bind_eq_some_iff.mp run
      obtain ⟨earlier, reached⟩ :=
        inductionHypothesis (Nat.le_of_succ_le_succ fits) later
      exact ⟨earlier, by rw [Target.steps, stepped]; exact reached⟩

/-! ## Runs that show stores -/

/-- A machine state shows a store: variables under their names, the results of
functions and the memory. -/
structure Target.Shows
    (name : Operand → Name) (store : Store Value Memory)
    (state : State Name Value Memory) : Prop where
  values :
    ∀ text, Undollared text →
      state.values (name (.word text)) = store.values text
  results :
    ∀ function,
      state.values (name (.result function)) = store.results function
  memory : state.memory = store.memory

variable (target name assembly) in
/-- The machine comes from one state to another, and is in states that stand for the
given stores on the way, one after the other. -/
def Target.Passes
    (stands : Store Value Memory → State Name Value Memory → Prop) :
    List (Store Value Memory) → State Name Value Memory →
      State Name Value Memory → Prop
  | [], before, after =>
      ∃ count, target.steps name assembly count before = some after
  | store :: stores, before, after =>
      ∃ count between,
        target.steps name assembly count before = some between ∧
          stands store between ∧ Passes stands stores between after

namespace Target.Passes

variable {stands weaker : Store Value Memory → State Name Value Memory → Prop}
  {seen more : List (Store Value Memory)} {store : Store Value Memory}
  {before : State Name Value Memory}

theorem refl (state : State Name Value Memory) :
    target.Passes name assembly stands [] state state :=
  ⟨0, rfl⟩

theorem exists_steps
    (passes : target.Passes name assembly stands seen before after) :
    ∃ count, target.steps name assembly count before = some after := by
  induction seen generalizing before with
  | nil =>
      exact passes
  | cons store stores inductionHypothesis =>
      obtain ⟨first, between, run, _, rest⟩ := passes
      obtain ⟨second, more⟩ := inductionHypothesis rest
      exact ⟨first + second, by rw [Target.steps_add run, more]⟩

/-- Steps before the first store. -/
theorem prepend
    {count : Nat}
    (run : target.steps name assembly count before = some middle)
    (passes : target.Passes name assembly stands seen middle after) :
    target.Passes name assembly stands seen before after := by
  cases seen with
  | nil =>
      obtain ⟨second, rest⟩ := passes
      exact ⟨count + second, by rw [Target.steps_add run, rest]⟩
  | cons store stores =>
      obtain ⟨second, between, reached, standing, rest⟩ := passes
      exact
        ⟨count + second, between, by rw [Target.steps_add run, reached],
          standing, rest⟩

theorem append
    (first : target.Passes name assembly stands seen before middle)
    (second : target.Passes name assembly stands more middle after) :
    target.Passes name assembly stands (seen ++ more) before after := by
  induction seen generalizing before with
  | nil =>
      obtain ⟨count, run⟩ := first
      exact second.prepend run
  | cons store stores inductionHypothesis =>
      obtain ⟨count, between, run, standing, rest⟩ := first
      exact ⟨count, between, run, standing, inductionHypothesis rest⟩

theorem mono
    (passes : target.Passes name assembly stands seen before after)
    (imp : ∀ store state, stands store state → weaker store state) :
    target.Passes name assembly weaker seen before after := by
  induction seen generalizing before with
  | nil =>
      exact passes
  | cons store stores inductionHypothesis =>
      obtain ⟨count, between, run, standing, rest⟩ := passes
      exact
        ⟨count, between, run, imp store between standing,
          inductionHypothesis rest⟩

/-- Every store on the way stands in some state of the run. -/
theorem exists_of_mem
    (passes : target.Passes name assembly stands seen before after)
    (member : store ∈ seen) :
    ∃ count between,
      target.steps name assembly count before = some between ∧
        stands store between := by
  induction seen generalizing before with
  | nil =>
      cases member
  | cons first others inductionHypothesis =>
      obtain ⟨count, between, run, standing, rest⟩ := passes
      rcases List.mem_cons.mp member with rfl | later
      · exact ⟨count, between, run, standing⟩
      · obtain ⟨more, last, reached, found⟩ := inductionHypothesis rest later
        exact
          ⟨count + more, last, by rw [Target.steps_add run, reached], found⟩

end Target.Passes

/-! ## Following an execution -/

variable (target name assembly) in
/-- The machine follows an execution with the given answer, which has the given
stores on the way. -/
def Leads
    (fuel : Nat) (state : State Name Value Memory)
    (seen : List (Store Value Memory)) (answer : Option Answer)
    (holds : Answer → State Name Value Memory → Prop) : Prop :=
  match answer with
  | some result =>
      ∃ after,
        target.Passes name assembly (Target.Shows name) seen state after ∧
          holds result after
  | none =>
      (∃ last,
        target.Passes name assembly (Target.Shows name) seen state last) ∧
        ∃ after, target.steps name assembly fuel state = some after

namespace Leads

variable {fuel less : Nat} {seen : List (Store Value Memory)}
  {answer : Option Answer}
  {holds weaker : Answer → State Name Value Memory → Prop}

theorem here
    {result : Answer} (holding : holds result state) :
    Leads target name assembly fuel state [] (some result) holds :=
  ⟨state, Target.Passes.refl state, holding⟩

theorem mono
    (leads : Leads target name assembly fuel state seen answer holds)
    (imp : ∀ result after, answer = some result → holds result after →
      weaker result after)
    (fits : less ≤ fuel) :
    Leads target name assembly less state seen answer weaker := by
  cases answer with
  | none =>
      obtain ⟨passes, after, run⟩ := leads
      exact ⟨passes, Target.steps_of_le fits run⟩
  | some result =>
      obtain ⟨after, passes, holding⟩ := leads
      exact ⟨after, passes, imp result after rfl holding⟩

theorem le
    (leads : Leads target name assembly fuel state seen answer holds)
    (fits : less ≤ fuel) :
    Leads target name assembly less state seen answer holds :=
  leads.mono (fun _ _ _ holding => holding) fits

theorem exists_passes
    (leads : Leads target name assembly fuel state seen answer holds) :
    ∃ last, target.Passes name assembly (Target.Shows name) seen state last := by
  cases answer with
  | none =>
      exact leads.1
  | some result =>
      obtain ⟨after, passes, _⟩ := leads
      exact ⟨after, passes⟩

/-- The machine shows a store before an execution is followed. -/
theorem shown
    {store : Store Value Memory} (shows : Target.Shows name store state)
    (leads : Leads target name assembly fuel state seen answer holds) :
    Leads target name assembly fuel state (store :: seen) answer holds := by
  cases answer with
  | none =>
      obtain ⟨⟨last, passes⟩, goesOn⟩ := leads
      exact ⟨⟨last, 0, state, rfl, shows, passes⟩, goesOn⟩
  | some result =>
      obtain ⟨after, passes, holding⟩ := leads
      exact ⟨after, ⟨0, state, rfl, shows, passes⟩, holding⟩

/-- One step of the machine before an execution is followed. -/
theorem step
    (stepped : target.step name assembly state = some middle)
    (leads : Leads target name assembly fuel middle seen answer holds) :
    Leads target name assembly (fuel + 1) state seen answer holds := by
  have run : target.steps name assembly 1 state = some middle := by
    rw [Target.steps, stepped]
    rfl
  cases answer with
  | none =>
      obtain ⟨⟨last, passes⟩, after, more⟩ := leads
      refine ⟨⟨last, passes.prepend run⟩, after, ?_⟩
      rw [Target.steps, stepped]
      exact more
  | some result =>
      obtain ⟨after, passes, holding⟩ := leads
      exact ⟨after, passes.prepend run, holding⟩

theorem stepped
    (stepped : target.step name assembly state = some middle)
    (leads : Leads target name assembly fuel middle seen answer holds) :
    Leads target name assembly fuel state seen answer holds :=
  (leads.step stepped).le (Nat.le_succ fuel)

/-- Executions one after the other are followed one after the other. -/
theorem bind
    {next : Answer → Option Later} {later : Answer → List (Store Value Memory)}
    {outer : Later → State Name Value Memory → Prop}
    (leads : Leads target name assembly fuel state seen answer holds)
    (follow : ∀ result after, holds result after →
      Leads target name assembly fuel after (later result) (next result)
        outer) :
    Leads target name assembly fuel state (seen ++ answer.elim [] later)
      (answer.bind next) outer := by
  cases answer with
  | none =>
      rw [Option.elim_none, List.append_nil]
      exact leads
  | some result =>
      obtain ⟨middle, passes, holding⟩ := leads
      have rest := follow result middle holding
      rw [Option.elim_some, Option.bind_some]
      cases ending : next result with
      | none =>
          rw [ending] at rest
          obtain ⟨⟨last, more⟩, after, run⟩ := rest
          obtain ⟨count, reached⟩ := passes.exists_steps
          have both :
              target.steps name assembly (count + fuel) state = some after := by
            rw [Target.steps_add reached, run]
          exact
            ⟨⟨last, passes.append more⟩,
              Target.steps_of_le (Nat.le_add_left fuel count) both⟩
      | some final =>
          rw [ending] at rest
          obtain ⟨after, more, holding⟩ := rest
          exact ⟨after, passes.append more, holding⟩

/-- The machine goes on behind an execution, with no more stores on the way. -/
theorem bindNext
    {next : Answer → Option Later}
    {outer : Later → State Name Value Memory → Prop}
    (leads : Leads target name assembly fuel state seen answer holds)
    (follow : ∀ result after, holds result after →
      Leads target name assembly fuel after [] (next result) outer) :
    Leads target name assembly fuel state seen (answer.bind next) outer := by
  rw [← List.append_nil seen, ← elim_nil answer]
  exact leads.bind follow

/-- The machine goes on behind an execution that has ended. -/
theorem andThen
    (leads : Leads target name assembly fuel state seen answer holds)
    (follow : ∀ result after, holds result after →
      Leads target name assembly fuel after [] (some result) weaker) :
    Leads target name assembly fuel state seen answer weaker := by
  rw [← Option.bind_fun_some answer]
  exact leads.bindNext follow

end Leads

/-! ## Runs that stop -/

theorem Target.step_of_stops (stops : assembly.Stops state.counter) :
    target.step name assembly state = none := by
  unfold Target.step
  rcases stops with nothing | halt
  · rw [nothing, Option.bind_none]
  · rw [halt, Option.bind_some, Target.perform]

theorem Target.eq_of_steps_le
    {first second : Nat} (ordered : first ≤ second)
    (stops : assembly.Stops middle.counter)
    (early : target.steps name assembly first state = some middle)
    (late : target.steps name assembly second state = some after) :
    after = middle := by
  obtain ⟨more, rfl⟩ := Nat.exists_eq_add_of_le ordered
  rw [Target.steps_add early] at late
  cases more with
  | zero =>
      cases late
      rfl
  | succ more =>
      rw [Target.steps, Target.step_of_stops stops] at late
      cases late

theorem Target.Halts.unique
    (first : target.Halts name assembly state middle)
    (second : target.Halts name assembly state after) :
    after = middle := by
  obtain ⟨⟨firstCount, firstRun⟩, firstStops⟩ := first
  obtain ⟨⟨secondCount, secondRun⟩, secondStops⟩ := second
  rcases Nat.le_total firstCount secondCount with fits | fits
  · exact Target.eq_of_steps_le fits firstStops firstRun secondRun
  · exact (Target.eq_of_steps_le fits secondStops secondRun firstRun).symm

/-- A machine that stops has followed an execution with an answer, whenever the
bound of the execution is large enough. -/
theorem Target.Halts.exists_answer
    {follows : Nat → Option Answer}
    {holds : Answer → State Name Value Memory → Prop}
    (halts : target.Halts name assembly state after)
    (leads : ∀ fuel, ∃ seen,
      Leads target name assembly fuel state seen (follows fuel) holds) :
    ∃ bound, ∀ fuel, bound ≤ fuel → ∃ result, follows fuel = some result := by
  obtain ⟨⟨count, run⟩, stops⟩ := halts
  refine ⟨count + 1, fun fuel fits => ?_⟩
  obtain ⟨seen, followed⟩ := leads fuel
  cases answer : follows fuel with
  | some result =>
      exact ⟨result, rfl⟩
  | none =>
      rw [answer] at followed
      obtain ⟨_, last, long⟩ := followed
      obtain ⟨beyond, more⟩ := Target.steps_of_le fits long
      rw [Target.steps_add run, Target.steps,
        Target.step_of_stops stops] at more
      cases more

end Leads

end FlatCode
