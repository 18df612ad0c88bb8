import FlatCode.Proofs.Semantics.Unended
import FlatCode.Proofs.Simulation.Name
import FlatCode.Proofs.Simulation.Stmt

/-!
# Code of programs follows their execution

A function only calls functions above it.  So the functions are served one after
the other: the temporaries of a function lie above those of all functions before
it, its own return address is none of theirs, and its body always returns.
-/

namespace FlatCode

open Entry
open Program (plainParts)

variable {Value Memory : Type} [DecidableEq Value]
  {target : Target Value Memory} {assembly : Assembly}

/-! ## A body that returns -/

section Returns

variable {invoke : Callee → Store Value Memory → Option (Store Value Memory)}
  {fuel : Nat}

mutual

theorem Target.exec_ne_normal :
    ∀ (stmt : Stmt) (around : Option Stmt.LoopLabels)
      (store after : Store Value Memory),
      stmt.returns = true →
        target.exec invoke fuel around stmt store ≠ some (.normal, after)
  | .ret function none, around, store, after, _ => by
      rw [Target.exec]
      nofun
  | .ret function (some value), around, store, after, _ => by
      rw [Target.exec]
      intro ended
      obtain ⟨result, _, ended⟩ := Option.bind_eq_some_iff.mp ended
      cases ended
  | .ifElse condition thenBranch elseBranch, around, store, after, returns => by
      rw [Stmt.returns, Bool.and_eq_true] at returns
      rw [Target.exec]
      intro ended
      obtain ⟨tested, _, ended⟩ := Option.bind_eq_some_iff.mp ended
      split at ended
      · exact
          exec_ne_normal thenBranch around tested.2 after returns.1 ended
      · exact
          exec_ne_normal elseBranch around tested.2 after returns.2 ended
  | .block body, around, store, after, returns => by
      rw [Stmt.returns] at returns
      rw [Target.exec]
      exact execAll_ne_normal body around store after returns
  | .assign .., _, _, _, returns
  | .store .., _, _, _, returns
  | .ifThen .., _, _, _, returns
  | .loop .., _, _, _, returns
  | .jump _, _, _, _, returns
  | .raw _, _, _, _, returns
  | .empty, _, _, _, returns => by
      rw [Stmt.returns] at returns
      cases returns

theorem Target.execAll_ne_normal :
    ∀ (body : List Stmt) (around : Option Stmt.LoopLabels)
      (store after : Store Value Memory),
      Stmt.anyReturns body = true →
        target.execAll invoke fuel around body store ≠ some (.normal, after)
  | [], around, store, after, returns => by
      rw [Stmt.anyReturns] at returns
      cases returns
  | first :: others, around, store, after, returns => by
      rw [Stmt.anyReturns, Bool.or_eq_true] at returns
      rw [Target.execAll]
      intro ended
      obtain ⟨⟨outcome, between⟩, began, ended⟩ :=
        Option.bind_eq_some_iff.mp ended
      cases outcome with
      | normal =>
          rcases returns with firstReturns | othersReturn
          · exact exec_ne_normal first around store between firstReturns began
          · exact
              execAll_ne_normal others around between after othersReturn ended
      | broke | continued | returned =>
          cases ended

end

end Returns

/-! ## Functions -/

/-- The temporaries outside of a range, and the return addresses of all but the
given functions. -/
def Kept.outside (low high : Nat) (functions : List Function) : Kept where
  temp number := number ≤ low ∨ high < number
  resume name := name ∉ functions.map Function.name

section Functions

variable {program : Program} {earlier : List Function} {created low : Nat}

/-- The functions called so far do what execution says, with temporaries between
`low` and `high`. -/
def ServesAll
    (program : Program) (target : Target Value Memory) (assembly : Assembly)
    (low high : Nat) (functions : List Function) : Prop :=
  ∀ fuel,
    Serves target assembly (program.call target fuel)
      (program.callTrace target fuel) fuel (Kept.outside low high functions)
      (functions.map Function.callee)

omit [DecidableEq Value] in
/-- A function above a range of temporaries adds its own ones to the range. -/
theorem Frame.outside_snoc
    {high top : Nat} (function : Function)
    {before after : Machine Value Memory}
    (frame : Frame (Kept.outside low high earlier) high top before after)
    (above : low ≤ high) (taken : high ≤ top) :
    Frame (Kept.outside low top (earlier ++ [function])) 0 0 before after := by
  refine ⟨fun number isKept _ => ?_, fun name isKept => ?_⟩
  · rcases isKept with below | beyond
    · exact
        frame.temp number (Or.inl below) (Or.inl (Nat.le_trans below above))
    · exact
        frame.temp number (Or.inr (Nat.lt_of_le_of_lt taken beyond))
          (Or.inr beyond)
  · apply frame.resume name
    intro member
    apply isKept
    rw [List.map_append]
    exact List.mem_append_left _ member

/-- The body of a function does what execution says and comes back to the
caller. -/
theorem leads_call
    {function : Function} {supply : Supply} {home : Nat}
    (formed : function.Formed plainParts earlier created)
    (found : program.function? function.name = some function)
    (carries : assembly.Carries home (function.lower supply).1)
    (serves :
      ServesAll program target assembly low supply.temps earlier)
    (fuel : Nat) {back : Nat} {state : Machine Value Memory}
    (here : state.counter = home)
    (recorded :
      state.values (.resume function.name) = target.address back) :
    Leads target id assembly (fuel - 1) state
      (program.callTrace target fuel function.callee (observe state))
      (program.call target fuel function.callee (observe state))
      fun store after =>
        after.counter = back ∧ observe after = store ∧
          Frame (Kept.outside low supply.temps earlier) supply.temps
            (function.lower supply).2.temps state after := by
  cases fuel with
  | zero =>
      exact ⟨⟨state, Target.Passes.refl state⟩, state, rfl⟩
  | succ fuel =>
      have resumes :
          ∀ name, some function.name = some name →
            (Kept.outside low supply.temps earlier).resume name := by
        rintro name same
        cases same
        exact formed.name_not_mem
      have returnable :
          Returnable target (some function.name) back state := by
        rintro name same
        cases same
        exact recorded
      have body :=
        Stmt.followedAll (serves fuel) resumes function.body none created
          formed.body supply home back state (by simp [LoopPlaced])
          (fun number above _ => Or.inr above) carries.2 here returnable
      have returns : Stmt.anyReturns function.body = true := by
        rw [Stmt.anyReturns_eq_any]
        exact formed.returns
      have returned :
          Leads target id assembly fuel state
            (target.execAllTrace (program.call target fuel)
              (program.callTrace target fuel) fuel none function.body
              (observe state))
            (target.execAll (program.call target fuel) fuel none function.body
              (observe state))
            fun result after =>
              after.counter = back ∧ observe after = result.2 ∧
                Frame (Kept.outside low supply.temps earlier) supply.temps
                  (function.lower supply).2.temps state after := by
        refine body.mono ?_ (Nat.le_refl fuel)
        rintro ⟨outcome, store⟩ after executed ⟨observed, frame, arrives⟩
        cases outcome with
        | normal =>
            exact
              absurd executed
                (Target.execAll_ne_normal function.body none _ store returns)
        | broke | continued =>
            obtain ⟨labels, none, _⟩ := arrives
            cases none
        | returned =>
            exact ⟨arrives.2, observed, frame⟩
      have called :
          program.call target (fuel + 1) function.callee (observe state) =
            (target.execAll (program.call target fuel) fuel none function.body
              (observe state)).bind fun ended => some ended.2 := by
        rw [Program.call, show program.function? function.callee.name = _ from found]
        rfl
      have passed :
          program.callTrace target (fuel + 1) function.callee (observe state) =
            target.execAllTrace (program.call target fuel)
              (program.callTrace target fuel) fuel none function.body
              (observe state) := by
        rw [Program.callTrace,
          show program.function? function.callee.name = _ from found,
          Option.elim_some]
      rw [called, passed]
      exact returned.bindNext fun _ _ ended => Leads.here ended

/-- The next function is served if all functions above it are. -/
theorem ServesAll.snoc
    {function : Function} {supply : Supply} {home : Nat}
    (serves : ServesAll program target assembly low supply.temps earlier)
    (formed : function.Formed plainParts earlier created)
    (found : program.function? function.name = some function)
    (carries : assembly.Carries home (function.lower supply).1)
    (above : low ≤ supply.temps) :
    ServesAll program target assembly low (function.lower supply).2.temps
      (earlier ++ [function]) := by
  have taken : supply.temps ≤ (function.lower supply).2.temps :=
    Stmt.temps_le_lowerAll function.body supply
  intro fuel
  rw [List.map_append, List.map_singleton]
  refine ⟨?_, ?_, ?_⟩
  · refine List.forall_mem_append.mpr ⟨(serves fuel).params, ?_⟩
    intro callee member param paramMember
    obtain rfl := List.mem_singleton.mp member
    exact formed.names param (List.mem_cons_of_mem _ paramMember)
  · intro callee member isKept
    apply isKept
    rw [← List.map_singleton, ← List.map_append] at member
    obtain ⟨called, calledMember, rfl⟩ := List.mem_map.mp member
    exact List.mem_map_of_mem calledMember
  · refine List.forall_mem_append.mpr ⟨?_, ?_⟩
    · intro callee member
      obtain ⟨place, placed, served⟩ := (serves fuel).call callee member
      refine ⟨place, placed, fun state back here recorded => ?_⟩
      refine (served state back here recorded).mono ?_ (Nat.le_refl _)
      rintro store after _ ⟨counter, observed, frame⟩
      exact
        ⟨counter, observed, frame.of_whole.outside_snoc function above taken⟩
    · intro callee member
      obtain rfl := List.mem_singleton.mp member
      refine ⟨home, carries.1, fun state back here recorded => ?_⟩
      have called :=
        leads_call formed found carries serves fuel here recorded
      refine called.mono ?_ (Nat.le_refl _)
      rintro store after _ ⟨counter, observed, frame⟩
      exact ⟨counter, observed, frame.outside_snoc function above taken⟩

theorem ServesAll.lowerAll
    {functions below : List Function} {supply : Supply} {address : Nat}
    (serves : ServesAll program target assembly low supply.temps earlier)
    (listed : program.functions = earlier ++ (functions ++ below))
    (formed : Function.FormedAll plainParts earlier created functions)
    (carries : assembly.Carries address (Function.lowerAll supply functions).1)
    (above : low ≤ supply.temps) :
    ServesAll program target assembly low
      (Function.lowerAll supply functions).2.temps (earlier ++ functions) := by
  induction functions generalizing earlier created supply address with
  | nil =>
      rw [List.append_nil]
      exact serves
  | cons first others inductionHypothesis =>
      rw [Function.lowerAll_cons, Assembly.carries_append] at carries
      have found :=
        Program.function?_of_append listed formed.1.name_not_mem
      have next := serves.snoc formed.1 found carries.1 above
      have taken : supply.temps ≤ (first.lower supply).2.temps :=
        Stmt.temps_le_lowerAll first.body supply
      have rest :
          program.functions = earlier ++ [first] ++ (others ++ below) := by
        rw [listed, List.append_assoc, List.singleton_append, List.cons_append]
      have all :=
        inductionHypothesis next rest formed.2 carries.2
          (Nat.le_trans above taken)
      rwa [List.append_assoc, List.singleton_append] at all

end Functions

/-! ## The main part -/

namespace Program

variable {program : Program} {emitted : Assembly}

/-- Functions are served by any assembly that carries their code and that of the
functions above them. -/
theorem servesAll_of_carries
    (target : Target Value Memory) (plain : program.Plain)
    {functions below : List Function}
    (listed : program.functions = functions ++ below)
    (carries :
      assembly.Carries (program.mainWidth + 1)
        (Function.lowerAll program.mainCode.2 functions).1) :
    ServesAll program target assembly program.mainCode.2.temps
      (Function.lowerAll program.mainCode.2 functions).2.temps functions := by
  have nothing :
      ServesAll program target assembly program.mainCode.2.temps
        program.mainCode.2.temps [] := by
    intro fuel
    exact ⟨nofun, nofun, nofun⟩
  have formed := plain.functions
  rw [listed, Function.formedAll_append] at formed
  exact nothing.lowerAll listed formed.1 carries (Nat.le_refl _)

theorem servesAll
    (target : Target Value Memory) (plain : program.Plain)
    (assembled :
      Assembly.ofEntries program.labels program.lower = .ok emitted) :
    ServesAll program target emitted.guarded program.mainCode.2.temps
      (Function.lowerAll program.mainCode.2 program.functions).2.temps
      program.functions :=
  servesAll_of_carries target plain (List.append_nil _).symm
    (carries_functions assembled)

theorem leads_main
    (plain : program.Plain)
    (assembled :
      Assembly.ofEntries program.labels program.lower = .ok emitted)
    (fuel : Nat) {state : Machine Value Memory} (here : state.counter = 0) :
    Leads target id emitted.guarded fuel state
      (program.trace target fuel (observe state))
      (program.run target fuel (observe state))
      fun store after =>
        after.counter = program.mainWidth ∧ observe after = store := by
  -- There is no caller of the main statements to go back to.
  have returnable : Returnable target none 0 state := by
    intro name none
    cases none
  have main :=
    Stmt.followedAll (servesAll target plain assembled fuel) (by simp)
      program.main none _ plain.main ⟨program.labels.created, 0⟩ 0 0 state
      (by simp [LoopPlaced]) (fun number _ below => Or.inl below)
      (carries_parts assembled).1 here returnable
  refine main.bindNext ?_
  rintro ⟨outcome, store⟩ after ⟨observed, _, arrives⟩
  refine Leads.here ⟨?_, observed⟩
  cases outcome with
  | normal =>
      rw [show after.counter = _ from arrives, Nat.zero_add]
      rfl
  | broke | continued =>
      obtain ⟨labels, none, _⟩ := arrives
      cases none
  | returned =>
      cases arrives.1

/-- Behind the main part, the machine stops. -/
theorem leads_stop
    (assembled :
      Assembly.ofEntries program.labels program.lower = .ok emitted)
    (fuel : Nat) {state : Machine Value Memory}
    (here : state.counter = program.mainWidth) :
    Leads target id emitted.guarded fuel state [] (some (observe state))
      fun store after =>
        emitted.guarded.Stops after.counter ∧ observe after = store := by
  rcases behind_main assembled with
    ⟨_, halt⟩ | ⟨_, noop, size⟩ | ⟨_, size⟩
  · refine Leads.here ⟨Or.inr ?_, rfl⟩
    rw [here, halt]
  · have passes : target.step id emitted.guarded state = some state.next := by
      rw [Target.step_of_perform (here ▸ noop), Target.perform]
    refine (Leads.here ⟨Or.inl ?_, observe_next state⟩).stepped passes
    show emitted.guarded.code[state.counter + 1]? = none
    rw [here, ← size, Array.getElem?_size]
  · refine Leads.here ⟨Or.inl ?_, rfl⟩
    rw [here, ← size, Array.getElem?_size]

theorem leads_run
    (target : Target Value Memory) (plain : program.Plain)
    (assembled :
      Assembly.ofEntries program.labels program.lower = .ok emitted)
    (fuel : Nat) {state : Machine Value Memory} (here : state.counter = 0) :
    Leads target id emitted.guarded fuel state
      (program.trace target fuel (observe state))
      (program.run target fuel (observe state))
      fun store after =>
        emitted.guarded.Stops after.counter ∧ observe after = store := by
  refine (leads_main plain assembled fuel here).andThen ?_
  rintro store between ⟨counter, rfl⟩
  exact leads_stop assembled fuel counter

end Program

/-- From states that agree, the machine does what execution does. -/
theorem Program.leads_of_agrees
    (target : Target Value Memory) {program : Program} {emitted : Assembly}
    (plain : program.Plain)
    (assembled :
      Assembly.ofEntries program.labels program.lower = .ok emitted)
    {store : Store Value Memory} {state : State String Value Memory}
    (here : state.counter = 0) (agrees : Agrees store state) (fuel : Nat) :
    Leads target Operand.render emitted.guarded fuel state
      (program.trace target fuel store) (program.run target fuel store)
      fun result after =>
        emitted.guarded.Stops after.counter ∧ Agrees result after := by
  have inner :
      Leads target id emitted.guarded fuel (Agrees.machine store state)
        (program.trace target fuel store) (program.run target fuel store)
        fun result after =>
          emitted.guarded.Stops after.counter ∧ observe after = result := by
    have atStart : (Agrees.machine store state).counter = 0 := here
    have leads := leads_run target plain assembled fuel atStart
    rwa [agrees.observe_machine] at leads
  have outer := agrees.alike.leads (proper_code plain assembled) inner
  refine outer.mono ?_ (Nat.le_refl fuel)
  rintro result after _ ⟨last, alike, stops, rfl⟩
  exact ⟨alike.counter ▸ stops, Agrees.of_alike alike⟩

/-- The listing of a program does what the program says, on every machine and from
every state.  Where execution ends, the machine stops with the same variables,
results and memory; the machine stops nowhere else; and where execution does not
end, the machine goes on forever.  In any case the machine has the same variables,
results and memory as execution behind each statement and behind each round of a
loop, one after the other, and an execution that does not end has more and more of
these stores. -/
theorem listing_simulates_execution
    {source : String} {program : Program}
    (read : Program.parse source = .ok program)
    (unraw : program.hasRaw = false)
    (uncounted : "@counter" ∉ program.words) :
    ∃ assembly lines,
      program.assemble = .ok assembly ∧
        assembly.listing = .ok lines ∧
        program.generate = .ok lines ∧
        ∀ {Value Memory : Type} [DecidableEq Value]
          (target : Target Value Memory) (store : Store Value Memory)
          (state : State String Value Memory),
          state.counter = 0 → Agrees store state →
            (∀ fuel result, program.run target fuel store = some result →
              ∃ after,
                target.Halts Operand.render assembly state after ∧
                  Agrees result after) ∧
            (∀ after, target.Halts Operand.render assembly state after →
              ∃ bound, ∀ fuel, bound ≤ fuel →
                ∃ result,
                  program.run target fuel store = some result ∧
                    Agrees result after) ∧
            ((∀ fuel, program.run target fuel store = none) →
              ∀ count, ∃ after,
                target.steps Operand.render assembly count state =
                  some after) ∧
            ∀ fuel,
              (∃ last,
                target.Passes Operand.render assembly Agrees
                  (program.trace target fuel store) state last) ∧
                (program.run target fuel store = none →
                  fuel ≤
                    (program.trace target fuel store).length +
                      program.functions.length) := by
  have formed := Program.wellFormed_of_parse read
  have plain := Program.plain_of_parse read unraw uncounted
  obtain ⟨emitted, assembled⟩ := Program.exists_ofEntries formed
  obtain ⟨lines, listed, generated⟩ := Program.exists_generate formed assembled
  refine
    ⟨emitted.guarded, lines, Program.assemble_eq assembled, listed, generated,
      ?_⟩
  intro Value Memory _ target store state here agrees
  have leads :=
    Program.leads_of_agrees target plain assembled here agrees
  have forward :
      ∀ fuel result, program.run target fuel store = some result →
        ∃ after,
          target.Halts Operand.render emitted.guarded state after ∧
            Agrees result after := by
    intro fuel result ended
    have followed := leads fuel
    rw [ended] at followed
    obtain ⟨after, passes, stops, same⟩ := followed
    exact ⟨after, ⟨passes.exists_steps, stops⟩, same⟩
  refine ⟨forward, ?_, ?_, ?_⟩
  · intro after halts
    obtain ⟨bound, answers⟩ :=
      halts.exists_answer fun fuel => ⟨_, leads fuel⟩
    refine ⟨bound, fun fuel fits => ?_⟩
    obtain ⟨result, ended⟩ := answers fuel fits
    obtain ⟨other, otherHalts, same⟩ := forward fuel result ended
    obtain rfl := otherHalts.unique halts
    exact ⟨result, ended, same⟩
  · intro endless count
    have followed := leads count
    rw [endless count] at followed
    exact followed.2
  · intro fuel
    obtain ⟨last, passes⟩ := (leads fuel).exists_passes
    exact
      ⟨⟨last, passes.mono fun _ _ => Agrees.of_shows⟩,
        Program.le_length_trace plain⟩

def sumSource : String :=
  "def twice(n) \x7b return n + n; \x7d " ++
    "while (i < 3) \x7b i = i + 1; x = x + twice(i); \x7d"

/-- The machine on integers adds up the first even numbers, and has the first of them
on the way. -/
theorem listing_simulates_execution_of_sum :
    ∃ program assembly after,
      Program.parse sumSource = .ok program ∧
        program.assemble = .ok assembly ∧
        integers.Halts Operand.render assembly ⟨0, fun _ => 0, fun _ _ => 0⟩
          after ∧
        after.values "x" = 12 ∧
        ∃ count between,
          integers.steps Operand.render assembly count
              ⟨0, fun _ => 0, fun _ _ => 0⟩ = some between ∧
            between.values "x" = 2 := by
  obtain ⟨program, read, accepted⟩ :=
    Program.exists_of_accepted
      (show ((Program.parse sumSource).toOption.any fun program =>
          (!program.hasRaw && !decide ("@counter" ∈ program.words)) &&
            ((program.run integers 5
              ⟨fun _ => 0, fun _ => 0, fun _ _ => 0⟩).any
                fun result => result.values "x" == 12) &&
            (program.trace integers 5
              ⟨fun _ => 0, fun _ => 0, fun _ _ => 0⟩).any
                fun store => store.values "x" == 2) = true by
        decide +kernel)
  simp only [Bool.and_eq_true, Bool.not_eq_true', decide_eq_false_iff_not,
    Option.any_eq_true, List.any_eq_true, beq_iff_eq] at accepted
  obtain ⟨⟨⟨unraw, uncounted⟩, result, ended, sum⟩, first, onTheWay, two⟩ :=
    accepted
  obtain ⟨assembly, _, assembled, _, _, simulates⟩ :=
    listing_simulates_execution read unraw uncounted
  obtain ⟨halting, _, _, passing⟩ :=
    simulates integers ⟨fun _ => 0, fun _ => 0, fun _ _ => 0⟩
      ⟨0, fun _ => 0, fun _ _ => 0⟩ rfl ⟨fun _ _ => rfl, fun _ => rfl, rfl⟩
  obtain ⟨after, halts, agrees⟩ := halting 5 result ended
  obtain ⟨last, passes⟩ := (passing 5).1
  obtain ⟨count, between, run, same⟩ := passes.exists_of_mem onTheWay
  refine
    ⟨program, assembly, after, read, assembled, halts, ?_, count, between, run,
      ?_⟩
  · rw [agrees.values "x" (by decide), sum]
  · rw [same.values "x" (by decide), two]

end FlatCode
