import FlatCode.Proofs.Lowering.Stmt
import FlatCode.Proofs.Simulation.Expr

/-!
# Code of statements follows their execution

How a statement ends decides where the machine is behind its code: at the end of
the code, at one of the labels of the innermost loop around it, or at the address
where the caller of the function goes on.
-/

namespace FlatCode

open Entry
open Program (plainParts)

variable {Value Memory : Type}

/-- Where the machine is when a statement has ended, which has its code before
`behind`, in a function whose caller goes on at `back`. -/
def Arrives
    (assembly : Assembly) (around : Option Stmt.LoopLabels)
    (function : Option String) (back behind : Nat) :
    Outcome → Nat → Prop
  | .normal, address => address = behind
  | .broke, address =>
      ∃ labels ∈ around, assembly.labels.address? labels.exit = some address
  | .continued, address =>
      ∃ labels ∈ around, assembly.labels.address? labels.home = some address
  | .returned, address => function.isSome = true ∧ address = back

/-- The machine has done what execution did. -/
structure EndedAt
    (assembly : Assembly) (kept : Kept) (around : Option Stmt.LoopLabels)
    (function : Option String) (back behind low high : Nat)
    (before : Machine Value Memory) (result : Outcome × Store Value Memory)
    (after : Machine Value Memory) : Prop where
  observed : observe after = result.2
  frame : Frame kept low high before after
  arrives :
    Arrives assembly around function back behind result.1 after.counter

namespace EndedAt

variable {assembly : Assembly} {kept : Kept}
  {around : Option Stmt.LoopLabels} {function : Option String}
  {back behind low high : Nat} {before between after : Machine Value Memory}
  {result : Outcome × Store Value Memory}

/-- Code that runs before a statement, on temporaries of the same range. -/
theorem after_frame
    (ended :
      EndedAt assembly kept around function back behind low high between result
        after)
    (frame : Frame kept low high before between) :
    EndedAt assembly kept around function back behind low high before result
      after :=
  ⟨ended.observed, frame.trans ended.frame, ended.arrives⟩

/-- Code that runs before a statement, on the temporaries below it. -/
theorem after_below
    {middle : Nat}
    (ended :
      EndedAt assembly kept around function back behind middle high between
        result after)
    (frame : Frame kept low middle before between)
    (below : low ≤ middle) (above : middle ≤ high) :
    EndedAt assembly kept around function back behind low high before result
      after :=
  ⟨ended.observed, frame.append ended.frame below above, ended.arrives⟩

/-- Code that takes more temporaries behind a statement. -/
theorem widen
    {top : Nat}
    (ended :
      EndedAt assembly kept around function back behind low high before result
        after)
    (above : high ≤ top) :
    EndedAt assembly kept around function back behind low top before result
      after :=
  ⟨ended.observed, ended.frame.widen (Nat.le_refl low) above, ended.arrives⟩

end EndedAt

variable [DecidableEq Value] {target : Target Value Memory}
  {assembly : Assembly}
  {invoke : Callee → Store Value Memory → Option (Store Value Memory)}
  {visits : Callee → Store Value Memory → List (Store Value Memory)}
  {fuel : Nat} {kept : Kept} {callees : List Callee}
  {function : Option String}

/-- The machine holds the address at which the caller of a function goes on. -/
def Returnable
    (target : Target Value Memory) (function : Option String) (back : Nat)
    (state : Machine Value Memory) : Prop :=
  ∀ name, function = some name →
    state.values (.resume name) = target.address back

omit [DecidableEq Value] in
theorem Returnable.of_frame
    {back low high : Nat} {before after : Machine Value Memory}
    (returnable : Returnable target function back before)
    (resumes : ∀ name, function = some name → kept.resume name)
    (frame : Frame kept low high before after) :
    Returnable target function back after := by
  intro name inside
  rw [frame.resume name (resumes name inside)]
  exact returnable name inside

/-! ## Loops -/

/-- A jump without condition before an execution is followed. -/
theorem Leads.jumped
    {Answer : Type} {seen : List (Store Value Memory)}
    {answer : Option Answer}
    {holds : Answer → Machine Value Memory → Prop}
    {state : Machine Value Memory} {label : Label} {place : Nat}
    (jumpHere : assembly.code[state.counter]? = some (.jump label .always))
    (placed : assembly.labels.address? label = some place)
    (leads :
      Leads target id assembly fuel (state.goTo place) seen answer holds) :
    Leads target id assembly fuel state seen answer holds :=
  leads.stepped (Target.step_of_always jumpHere placed)

/-- Behind the body of a loop, the machine goes back to the test, or it is behind
the loop already, or the function has returned. -/
theorem leads_behind_body
    {home exit : Label} {around : Option Stmt.LoopLabels}
    {temps high start last back rounds : Nat}
    {state between : Machine Value Memory}
    {result : Outcome × Store Value Memory}
    {repeated : Option (Outcome × Store Value Memory)}
    {seen : List (Store Value Memory)}
    (homePlaced : assembly.labels.address? home = some start)
    (jumpHere : assembly.code[last]? = some (.jump home .always))
    (exitPlaced : assembly.labels.address? exit = some (last + 1))
    (ended :
      EndedAt assembly kept (some ⟨home, exit⟩) function back last temps high
        state result between)
    (again : ∀ next : Machine Value Memory, next.counter = start →
      observe next = result.2 → Frame kept temps high state next →
        Leads target id assembly rounds next seen repeated
          (EndedAt assembly kept around function back (last + 1) temps high
            state)) :
    Leads target id assembly rounds between
      (result.2 ::
        match result.1 with
        | .normal | .continued => seen
        | .broke | .returned => [])
      (match result.1 with
      | .normal | .continued => repeated
      | .broke => some (.normal, result.2)
      | .returned => some (.returned, result.2))
      (EndedAt assembly kept around function back (last + 1) temps high
        state) := by
  obtain ⟨outcome, store⟩ := result
  obtain ⟨observed, frame, arrives⟩ := ended
  refine Leads.shown (shows_of_observe observed) ?_
  cases outcome with
  | normal =>
      exact
        Leads.jumped
          (show assembly.code[between.counter]? = _ from arrives ▸ jumpHere)
          homePlaced
          (again (between.goTo start) rfl observed (frame.goTo start))
  | continued =>
      obtain ⟨labels, same, atHome⟩ := arrives
      cases same
      rw [homePlaced] at atHome
      exact again between (Option.some.inj atHome).symm observed frame
  | broke =>
      obtain ⟨labels, same, atExit⟩ := arrives
      cases same
      rw [exitPlaced] at atExit
      exact Leads.here ⟨observed, frame, (Option.some.inj atExit).symm⟩
  | returned =>
      exact Leads.here ⟨observed, frame, arrives⟩

theorem leads_repeatLoop
    {home exit : Label} {condition : Expr} {body : Stmt}
    {around : Option Stmt.LoopLabels}
    {temps high start inside last back : Nat}
    (serves : Serves target assembly invoke visits fuel kept callees)
    (resumes : ∀ name, function = some name → kept.resume name)
    (plain : condition.Plain callees)
    (own : ∀ number, temps < number → number ≤ high → kept.temp number)
    (testTemps : (condition.lowerCondition exit true temps).2 ≤ high)
    (insideHere :
      inside =
        start + (condition.lowerCondition exit true temps).1.length)
    (homePlaced : assembly.labels.address? home = some start)
    (testCarried :
      assembly.Carries start
        (emitAll (condition.lowerCondition exit true temps).1))
    (jumpHere : assembly.code[last]? = some (.jump home .always))
    (exitPlaced : assembly.labels.address? exit = some (last + 1))
    (repeated : ∀ state : Machine Value Memory, state.counter = inside →
      Returnable target function back state →
        Leads target id assembly fuel state
          (target.execTrace invoke visits fuel (some ⟨home, exit⟩) body
            (observe state))
          (target.exec invoke fuel (some ⟨home, exit⟩) body (observe state))
          (EndedAt assembly kept (some ⟨home, exit⟩) function back last temps
            high state))
    {rounds : Nat} (fits : rounds ≤ fuel) {state : Machine Value Memory}
    (here : state.counter = start)
    (returnable : Returnable target function back state) :
    Leads target id assembly rounds state
      (Target.repeatTrace (target.test invoke condition)
        (target.exec invoke fuel (some ⟨home, exit⟩) body)
        (target.evalTrace invoke visits condition)
        (target.execTrace invoke visits fuel (some ⟨home, exit⟩) body) rounds
        (observe state))
      (Target.repeatLoop (target.test invoke condition)
        (target.exec invoke fuel (some ⟨home, exit⟩) body) rounds
        (observe state))
      (EndedAt assembly kept around function back (last + 1) temps high
        state) := by
  induction rounds generalizing state with
  | zero =>
      exact ⟨⟨state, Target.Passes.refl state⟩, state, rfl⟩
  | succ rounds inductionHypothesis =>
      rw [Target.repeatTrace, Target.repeatLoop]
      refine
        leads_condition serves plain
          (fun number above below => own number above (by omega)) testCarried
          exitPlaced here fits (Nat.le_refl _) ?_
      intro tested entered counter observed testFrame
      have frame : Frame kept temps high state entered :=
        testFrame.widen (Nat.le_refl temps) testTemps
      by_cases holdsTrue : tested.1 = true
      · rw [if_pos holdsTrue] at counter
        rw [if_pos holdsTrue, if_pos holdsTrue]
        rw [← insideHere] at counter
        have bodyLeads :=
          repeated entered counter (returnable.of_frame resumes frame)
        rw [observed] at bodyLeads
        refine (bodyLeads.le (by omega)).bind ?_
        intro result between ended
        refine
          leads_behind_body homePlaced jumpHere exitPlaced
            (ended.after_frame frame) ?_
        intro next atStart nextObserved nextFrame
        have rest :=
          inductionHypothesis (Nat.le_of_succ_le fits) atStart
            (returnable.of_frame resumes nextFrame)
        rw [nextObserved] at rest
        exact
          rest.mono (fun _ _ _ ended => ended.after_frame nextFrame)
            (Nat.le_refl rounds)
      · rw [if_neg holdsTrue] at counter
        rw [if_neg holdsTrue, if_neg holdsTrue]
        exact Leads.here ⟨observed, frame, counter⟩

/-! ## Statements -/

def LoopPlaced
    (assembly : Assembly) (around : Option Stmt.LoopLabels) : Prop :=
  ∀ labels ∈ around,
    (∃ place, assembly.labels.address? labels.home = some place) ∧
      ∃ place, assembly.labels.address? labels.exit = some place

/-- Code with temporaries above `low` follows an execution, wherever the code
stands. -/
def CodeFollowed
    (target : Target Value Memory) (assembly : Assembly) (fuel : Nat)
    (kept : Kept) (function : Option String)
    (around : Option Stmt.LoopLabels) (low : Nat) (code : List Entry × Supply)
    (trace : Store Value Memory → List (Store Value Memory))
    (exec : Store Value Memory → Option (Outcome × Store Value Memory)) :
    Prop :=
  ∀ (start back : Nat) (state : Machine Value Memory),
    LoopPlaced assembly around →
      (∀ number, low < number → number ≤ code.2.temps → kept.temp number) →
        assembly.Carries start code.1 →
          state.counter = start →
            Returnable target function back state →
              Leads target id assembly fuel state (trace (observe state))
                (exec (observe state))
                (EndedAt assembly kept around function back
                  (start + width code.1) low code.2.temps state)

namespace Stmt

/-- The code of a statement does what execution says, whatever labels and
temporaries are in use before it. -/
def Followed
    (target : Target Value Memory) (assembly : Assembly)
    (invoke : Callee → Store Value Memory → Option (Store Value Memory))
    (visits : Callee → Store Value Memory → List (Store Value Memory))
    (fuel : Nat) (kept : Kept) (function : Option String)
    (around : Option LoopLabels) (stmt : Stmt) : Prop :=
  ∀ supply,
    CodeFollowed target assembly fuel kept function around supply.temps
      (stmt.lower supply) (target.execTrace invoke visits fuel around stmt)
      (target.exec invoke fuel around stmt)

def FollowedAll
    (target : Target Value Memory) (assembly : Assembly)
    (invoke : Callee → Store Value Memory → Option (Store Value Memory))
    (visits : Callee → Store Value Memory → List (Store Value Memory))
    (fuel : Nat) (kept : Kept) (function : Option String)
    (around : Option LoopLabels) (body : List Stmt) : Prop :=
  ∀ supply,
    CodeFollowed target assembly fuel kept function around supply.temps
      (lowerAll supply body)
      (target.execAllTrace invoke visits fuel around body)
      (target.execAll invoke fuel around body)

section Forms

variable {around : Option LoopLabels}

theorem followed_assign
    {name : String} {value : Expr}
    (serves : Serves target assembly invoke visits fuel kept callees)
    (namePlain : PlainWord name) (valuePlain : value.Plain callees) :
    (Stmt.assign name value).Followed target assembly invoke visits fuel kept
      function around := by
  intro supply start back state _ own carries here _
  rw [lower_assign] at own carries ⊢
  rw [Target.execTrace, Target.exec, width_emitAll]
  have stored :=
    Expr.followed serves valuePlain (.word name) supply.temps start state
      namePlain.2 own carries here
  refine stored.bindNext ?_
  intro result after storedAt
  obtain ⟨counter, observed, frame⟩ := storedAt.word
  split
  · next discarded =>
      rw [if_pos discarded] at observed
      exact Leads.here ⟨observed, frame, counter⟩
  · next written =>
      rw [if_neg written] at observed
      exact Leads.here ⟨observed, frame, counter⟩

theorem followed_store
    {cell : String} {index value : Expr}
    (serves : Serves target assembly invoke visits fuel kept callees)
    (cellPlain : PlainWord cell) (indexPlain : index.Plain callees)
    (valuePlain : value.Plain callees) :
    (Stmt.store cell index value).Followed target assembly invoke visits fuel kept
      function around := by
  intro supply start back state _ own carries here _
  rw [lower_store] at own carries ⊢
  rw [Target.execTrace, Target.exec, width_emitAll]
  dsimp only at own carries ⊢
  rw [Assembly.carries_emitAll_append,
    Assembly.carries_emitAll_append] at carries
  obtain ⟨valueCarried, indexCarried, writeHere, _⟩ := carries
  refine
    leads_operands (fun _ _ => []) (by simp only [elim_nil, List.append_nil])
      (Nat.le_refl fuel) (Expr.followed serves valuePlain)
      (Expr.followed serves indexPlain) valuePlain.words indexPlain.words
      own valueCarried indexCarried here ?_
  intro stored place after counter observed frame valueHeld indexHeld
  have memory : after.memory = place.2.memory :=
    congrArg Store.memory observed
  have writes :
      target.step id assembly after =
        some
          { after.next with
            memory :=
              target.save (target.get place.2 stored.1)
                (target.read place.2 cell) (target.get place.2 place.1)
                place.2.memory } := by
    rw [Target.step_of_perform (counter ▸ writeHere), Target.perform,
      valueHeld, indexHeld, Target.value_word after cellPlain, observed,
      memory]
  refine
    Leads.stepped writes (Leads.here ⟨?_, ⟨frame.temp, frame.resume⟩, ?_⟩)
  · rw [← observed]
    rfl
  · show after.counter + 1 = _
    simp only [counter, List.length_append, List.length_singleton]
    omega

theorem followed_ifThen
    {condition : Expr} {thenBranch : Stmt}
    (serves : Serves target assembly invoke visits fuel kept callees)
    (resumes : ∀ name, function = some name → kept.resume name)
    (plain : condition.Plain callees)
    (followed :
      thenBranch.Followed target assembly invoke visits fuel kept function around) :
    (Stmt.ifThen condition thenBranch).Followed target assembly invoke visits fuel
      kept function around := by
  intro supply start back state loops own carries here returnable
  obtain
    ⟨branch, behind, branchHere, behindHere, total, testCarried,
      branchCarried, exitPlaced⟩ := carries_ifThen carries
  rw [total, Target.execTrace, Target.exec]
  rw [lower_ifThen] at own ⊢
  dsimp only at own ⊢
  have testTemps :=
    Expr.temps_le_lowerCondition condition ⟨supply.labels⟩ true supply.temps
  have branchTemps :=
    temps_le_lower thenBranch
      ⟨supply.labels + 1,
        (condition.lowerCondition ⟨supply.labels⟩ true supply.temps).2⟩
  refine
    leads_condition serves plain
      (fun number above below =>
        own number above (Nat.le_trans below branchTemps))
      testCarried exitPlaced here (Nat.le_refl fuel) (Nat.le_succ fuel) ?_
  intro tested entered counter observed frame
  by_cases holdsTrue : tested.1 = true
  · rw [if_pos holdsTrue, ← branchHere] at counter
    rw [if_pos holdsTrue, if_pos holdsTrue]
    have first :=
      followed _ branch back entered loops
        (fun number above =>
          own number (Nat.lt_of_le_of_lt testTemps above))
        branchCarried counter (returnable.of_frame resumes frame)
    rw [observed, ← behindHere] at first
    exact
      first.mono
        (fun _ _ _ ended => ended.after_below frame testTemps branchTemps)
        (Nat.le_refl fuel)
  · rw [if_neg holdsTrue] at counter
    rw [if_neg holdsTrue, if_neg holdsTrue]
    exact
      Leads.here
        ⟨observed, frame.widen (Nat.le_refl _) branchTemps, counter⟩

/-- Behind the first of two branches, the machine jumps over the second one. -/
theorem leads_behind_branch
    {label : Label} {between behind back low high : Nat}
    {state after : Machine Value Memory}
    {result : Outcome × Store Value Memory}
    (jumpHere : assembly.code[between]? = some (.jump label .always))
    (placed : assembly.labels.address? label = some behind)
    (ended :
      EndedAt assembly kept around function back between low high state result
        after) :
    Leads target id assembly fuel after [] (some result)
      (EndedAt assembly kept around function back behind low high state) := by
  obtain ⟨outcome, store⟩ := result
  obtain ⟨observed, frame, arrives⟩ := ended
  cases outcome with
  | normal =>
      exact
        Leads.jumped
          (show assembly.code[after.counter]? = _ from arrives ▸ jumpHere)
          placed (Leads.here ⟨observed, frame.goTo behind, rfl⟩)
  | broke | continued | returned =>
      exact Leads.here ⟨observed, frame, arrives⟩

theorem followed_ifElse
    {condition : Expr} {thenBranch elseBranch : Stmt}
    (serves : Serves target assembly invoke visits fuel kept callees)
    (resumes : ∀ name, function = some name → kept.resume name)
    (plain : condition.Plain callees)
    (thenFollowed :
      thenBranch.Followed target assembly invoke visits fuel kept function around)
    (elseFollowed :
      elseBranch.Followed target assembly invoke visits fuel kept function around) :
    (Stmt.ifElse condition thenBranch elseBranch).Followed target assembly
      invoke visits fuel kept function around := by
  intro supply start back state loops own carries here returnable
  obtain
    ⟨branch, between, behind, branchHere, betweenHere, behindHere, total,
      testCarried, firstCarried, jumpHere, otherwisePlaced, secondCarried,
      exitPlaced⟩ := carries_ifElse carries
  rw [total, Target.execTrace, Target.exec]
  rw [lower_ifElse] at own ⊢
  dsimp only at own ⊢
  have testTemps :=
    Expr.temps_le_lowerCondition condition ⟨supply.labels⟩ true supply.temps
  have firstTemps :=
    temps_le_lower thenBranch
      ⟨supply.labels + 2,
        (condition.lowerCondition ⟨supply.labels⟩ true supply.temps).2⟩
  have secondTemps :=
    temps_le_lower elseBranch
      (thenBranch.lower
        ⟨supply.labels + 2,
          (condition.lowerCondition
            ⟨supply.labels⟩ true supply.temps).2⟩).2
  have branchTemps := Nat.le_trans firstTemps secondTemps
  refine
    leads_condition serves plain
      (fun number above below =>
        own number above (Nat.le_trans below branchTemps))
      testCarried otherwisePlaced here (Nat.le_refl fuel)
      (Nat.le_succ fuel) ?_
  intro tested entered counter observed frame
  have ready := returnable.of_frame resumes frame
  by_cases holdsTrue : tested.1 = true
  · rw [if_pos holdsTrue, ← branchHere] at counter
    rw [if_pos holdsTrue, if_pos holdsTrue]
    have first :=
      thenFollowed _ branch back entered loops
        (fun number above below =>
          own number (Nat.lt_of_le_of_lt testTemps above)
            (Nat.le_trans below secondTemps))
        firstCarried counter ready
    rw [observed, ← betweenHere] at first
    refine first.andThen ?_
    intro result after ended
    exact
      leads_behind_branch jumpHere exitPlaced
        ((ended.after_below frame testTemps firstTemps).widen secondTemps)
  · rw [if_neg holdsTrue] at counter
    rw [if_neg holdsTrue, if_neg holdsTrue]
    have second :=
      elseFollowed _ (between + 1) back entered loops
        (fun number above =>
          own number
            (Nat.lt_of_le_of_lt (Nat.le_trans testTemps firstTemps)
              above))
        secondCarried counter ready
    rw [observed, ← behindHere] at second
    exact
      second.mono
        (fun _ _ _ ended =>
          ended.after_below
            (frame.widen (Nat.le_refl _) firstTemps)
            (Nat.le_trans testTemps firstTemps) secondTemps)
        (Nat.le_refl fuel)

theorem followed_loop
    {home exit : Label} {condition : Expr} {body : Stmt}
    (serves : Serves target assembly invoke visits fuel kept callees)
    (resumes : ∀ name, function = some name → kept.resume name)
    (plain : condition.Plain callees)
    (followed :
      body.Followed target assembly invoke visits fuel kept function
        (some ⟨home, exit⟩)) :
    (Stmt.loop home exit condition body).Followed target assembly invoke visits fuel
      kept function around := by
  intro supply start back state _ own carries here returnable
  obtain
    ⟨inside, last, insideHere, lastHere, total, homePlaced, testCarried,
      bodyCarried, jumpHere, exitPlaced⟩ := carries_loop carries
  rw [total, Target.execTrace, Target.exec]
  rw [lower_loop] at own ⊢
  dsimp only at own ⊢
  have testTemps :=
    Expr.temps_le_lowerCondition condition exit true supply.temps
  have bodyTemps :=
    temps_le_lower body
      { supply with
        temps := (condition.lowerCondition exit true supply.temps).2 }
  have placed : LoopPlaced assembly (some ⟨home, exit⟩) := by
    rintro labels same
    cases same
    exact ⟨⟨_, homePlaced⟩, ⟨_, exitPlaced⟩⟩
  refine
    leads_repeatLoop serves resumes plain own bodyTemps insideHere homePlaced
      testCarried jumpHere exitPlaced ?_ (Nat.le_refl fuel) here returnable
  intro entered counter ready
  have repeated :=
    followed _ inside back entered placed
      (fun number above => own number (Nat.lt_of_le_of_lt testTemps above))
      bodyCarried counter ready
  rw [← lastHere] at repeated
  exact
    repeated.mono
      (fun _ _ _ ended =>
        ended.after_below (Frame.refl entered) testTemps bodyTemps)
      (Nat.le_refl fuel)

/-- The instruction that leaves a function goes to where the caller goes on. -/
theorem leads_leave
    {name : String} {store : Store Value Memory}
    {last behind back low high : Nat} {state after : Machine Value Memory}
    (resumes : ∀ name, function = some name → kept.resume name)
    (inside : function = some name)
    (leaveHere :
      assembly.code[last]? = some (.set .counter (.resume name)))
    (returnable : Returnable target function back state)
    (counter : after.counter = last) (observed : observe after = store)
    (frame : Frame kept low high state after) :
    Leads target id assembly fuel after [] (some (Outcome.returned, store))
      (EndedAt assembly kept around function back behind low high state) := by
  have recorded := returnable.of_frame resumes frame name inside
  have jumps : target.step id assembly after = some (after.goTo back) :=
    Target.step_of_leave (counter ▸ leaveHere) recorded
  have arrives : function.isSome = true ∧ back = back :=
    ⟨Option.isSome_iff_exists.mpr ⟨name, inside⟩, rfl⟩
  exact (Leads.here ⟨observed, frame.goTo back, arrives⟩).stepped jumps

theorem followed_ret
    {name : String} {value : Option Expr}
    (serves : Serves target assembly invoke visits fuel kept callees)
    (resumes : ∀ name, function = some name → kept.resume name)
    (inside : function = some name)
    (plain : ∀ result ∈ value, result.Plain callees) :
    (Stmt.ret name value).Followed target assembly invoke visits fuel kept function
      around := by
  intro supply start back state _ own carries here returnable
  obtain ⟨last, lastHere, total, resultCarried, leaveHere⟩ :=
    carries_ret carries
  rw [total]
  rw [lower_ret] at own ⊢
  dsimp only at own ⊢
  cases value with
  | none =>
      rw [Target.execTrace, Target.exec]
      exact
        leads_leave resumes inside leaveHere returnable
          (here.trans lastHere.symm) rfl (Frame.refl state)
  | some value =>
      rw [Target.execTrace, Target.exec]
      have stored :=
        Expr.followed serves (plain value rfl) (.result name) supply.temps
          start state
          (Operand.render_ne_counter (Operand.dollared_result name)) own
          resultCarried here
      refine stored.bindNext ?_
      intro result after storedAt
      obtain ⟨counter, observed, frame⟩ := storedAt.result
      exact
        leads_leave resumes inside leaveHere returnable
          (counter.trans lastHere.symm) observed frame

theorem followed_jump
    {label : Label} {labels : LoopLabels}
    (aim : label = labels.home ∨ label = labels.exit) :
    (Stmt.jump label).Followed target assembly invoke visits fuel kept function
      (some labels) := by
  intro supply start back state loops own carries here _
  obtain ⟨⟨homePlace, homePlaced⟩, ⟨exitPlace, exitPlaced⟩⟩ :=
    loops labels rfl
  rw [lower_jump] at carries ⊢
  have jumpHere := here ▸ carries.1
  rw [Target.execTrace, Target.exec]
  dsimp only
  by_cases leaves : label = labels.exit
  · subst leaves
    rw [if_pos rfl]
    exact
      Leads.jumped jumpHere exitPlaced
        (Leads.here
          ⟨rfl, (Frame.refl state).goTo exitPlace, ⟨labels, rfl, exitPlaced⟩⟩)
  · have repeats : label = labels.home := aim.resolve_right leaves
    subst repeats
    rw [if_neg leaves, if_pos rfl]
    exact
      Leads.jumped jumpHere homePlaced
        (Leads.here
          ⟨rfl, (Frame.refl state).goTo homePlace, ⟨labels, rfl, homePlaced⟩⟩)

theorem followed_block
    {body : List Stmt}
    (followed :
      FollowedAll target assembly invoke visits fuel kept function around body) :
    (Stmt.block body).Followed target assembly invoke visits fuel kept function
      around := by
  intro supply start back state
  rw [lower_block, Target.execTrace, Target.exec]
  exact followed supply start back state

theorem followed_empty :
    Stmt.empty.Followed target assembly invoke visits fuel kept function around := by
  intro supply start back state _ _ _ here _
  rw [lower_empty, Target.execTrace, Target.exec]
  exact Leads.here ⟨rfl, Frame.refl state, here⟩

theorem followedAll_nil :
    FollowedAll target assembly invoke visits fuel kept function around [] := by
  intro supply start back state _ _ _ here _
  rw [lowerAll_nil, Target.execAllTrace, Target.execAll]
  exact Leads.here ⟨rfl, Frame.refl state, here⟩

theorem followedAll_cons
    {first : Stmt} {others : List Stmt}
    (resumes : ∀ name, function = some name → kept.resume name)
    (firstFollowed :
      first.Followed target assembly invoke visits fuel kept function around)
    (othersFollowed :
      FollowedAll target assembly invoke visits fuel kept function around others) :
    FollowedAll target assembly invoke visits fuel kept function around
      (first :: others) := by
  intro supply start back state loops own carries here returnable
  obtain ⟨middle, middleHere, total, firstCarried, othersCarried⟩ :=
    carries_cons carries
  rw [total, Target.execAllTrace, Target.execAll]
  rw [lowerAll_cons] at own ⊢
  dsimp only at own ⊢
  have firstTemps := temps_le_lower first supply
  have othersTemps := temps_le_lowerAll others (first.lower supply).2
  have head :=
    firstFollowed supply start back state loops
      (fun number above below => own number above (by omega)) firstCarried
      here returnable
  refine head.bind ?_
  rintro ⟨outcome, store⟩ between ⟨observed, frame, arrives⟩
  refine Leads.shown (shows_of_observe observed) ?_
  cases outcome with
  | normal =>
      have tail :=
        othersFollowed _ middle back between loops
          (fun number above below => own number (by omega) below)
          othersCarried (middleHere ▸ arrives)
          (returnable.of_frame resumes frame)
      rw [show observe between = store from observed] at tail
      exact
        tail.mono
          (fun _ _ _ ended => ended.after_below frame firstTemps othersTemps)
          (Nat.le_refl fuel)
  | broke | continued | returned =>
      exact
        Leads.here
          ⟨observed, frame.widen (Nat.le_refl _) othersTemps, arrives⟩

end Forms

mutual

/-- The code of every statement of a plain program follows its execution. -/
theorem followed
    (serves : Serves target assembly invoke visits fuel kept callees)
    (resumes : ∀ name, function = some name → kept.resume name) :
    ∀ (stmt : Stmt) (around : Option LoopLabels) (created : Nat),
      stmt.Formed (plainParts callees function) around created →
        stmt.Followed target assembly invoke visits fuel kept function around
  | .assign _ _, _, _, ⟨namePlain, valuePlain⟩ =>
      followed_assign serves namePlain valuePlain
  | .store _ _ _, _, _, ⟨cellPlain, indexPlain, valuePlain⟩ =>
      followed_store serves cellPlain indexPlain valuePlain
  | .ifThen _ thenBranch, around, created, ⟨plain, formed⟩ =>
      followed_ifThen serves resumes plain
        (followed serves resumes thenBranch around created formed)
  | .ifElse _ thenBranch elseBranch, around, created,
      ⟨plain, thenFormed, elseFormed⟩ =>
      followed_ifElse serves resumes plain
        (followed serves resumes thenBranch around created thenFormed)
        (followed serves resumes elseBranch around _ elseFormed)
  | .loop _ _ _ body, _, created, ⟨rfl, rfl, plain, formed⟩ =>
      followed_loop serves resumes plain
        (followed serves resumes body _ (created + 2) formed)
  | .ret _ _, _, _, ⟨inside, plain⟩ =>
      followed_ret serves resumes inside plain
  | .jump _, _, _, ⟨_, rfl, aim⟩ =>
      followed_jump aim
  | .raw _, _, _, formed =>
      formed.elim
  | .block body, around, created, formed =>
      followed_block (followedAll serves resumes body around created formed)
  | .empty, _, _, _ =>
      followed_empty

theorem followedAll
    (serves : Serves target assembly invoke visits fuel kept callees)
    (resumes : ∀ name, function = some name → kept.resume name) :
    ∀ (body : List Stmt) (around : Option LoopLabels) (created : Nat),
      FormedAll (plainParts callees function) around created body →
        FollowedAll target assembly invoke visits fuel kept function around body
  | [], _, _, _ =>
      followedAll_nil
  | first :: others, around, created, ⟨firstFormed, othersFormed⟩ =>
      followedAll_cons resumes
        (followed serves resumes first around created firstFormed)
        (followedAll serves resumes others around _ othersFormed)

end

end Stmt

end FlatCode
