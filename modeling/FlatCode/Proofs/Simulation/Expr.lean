import FlatCode.Proofs.Lowering.Expr
import FlatCode.Proofs.Simulation.Observe

/-!
# Code of expressions follows their evaluation

The code of an expression that stores its value into an operand is `Followed`:
the machine evaluates the operands as execution does, and ends by storing the
value.  Where the value is asked for anywhere, it is left in a temporary above all
temporaries in use, or the expression is an atom and there is no code.

Two facts carry the proof.  An operand that was evaluated keeps its value until it
is used, because the code behind it takes larger temporaries and called functions
leave the temporaries of their callers alone.  And an atom is a word, which both
the machine and execution read when the operation is applied.
-/

namespace FlatCode

open Entry

variable {Value Memory : Type}

/-- An operand of the machine stands for an evaluated operand.  Values are in
temporaries between two numbers. -/
inductive Placed (state : Machine Value Memory) (low high : Nat) :
    Operand → Held Value → Prop
  | name {text : String} :
      PlainWord text → Placed state low high (.word text) (.name text)
  | value {number : Nat} {value : Value} :
      low < number → number ≤ high →
        state.values (.temp number) = value →
          Placed state low high (.temp number) (.value value)

theorem Placed.value_eq
    {state after : Machine Value Memory} {kept : Kept} {low high top : Nat}
    {operand : Operand} {held : Held Value}
    (placed : Placed state low high operand held)
    (target : Target Value Memory)
    (own : ∀ number, low < number → number ≤ high → kept.temp number)
    (frame : Frame kept high top state after) :
    target.value id after operand = target.get (observe after) held := by
  cases placed with
  | name plain =>
      exact Target.value_word after plain
  | @value number value above below stored =>
      rw [Target.value_of_dollared after (Operand.dollared_temp number),
        frame.temp number (own number above below) (Or.inl below), stored]
      rfl

/-- Code that was asked for a value anywhere has left it in its operand. -/
structure EvaluatedAt
    (kept : Kept) (before : Machine Value Memory) (temps address : Nat)
    (computed : Computed) (result : Held Value × Store Value Memory)
    (after : Machine Value Memory) : Prop where
  counter : after.counter = address
  observed : observe after = result.2
  frame : Frame kept temps computed.temps before after
  placed : Placed after temps computed.temps computed.operand result.1

/-- Code that was asked to store a value has stored it as its last step. -/
def StoredAt
    (target : Target Value Memory) (kept : Kept)
    (before : Machine Value Memory) (low high address : Nat)
    (operand : Operand) (result : Held Value × Store Value Memory)
    (after : Machine Value Memory) : Prop :=
  ∃ middle,
    observe middle = result.2 ∧ Frame kept low high before middle ∧
      after =
        (middle.store operand (target.get result.2 result.1)).goTo address

/-- A value stored into the temporary taken first is there, and everything below
it is left alone. -/
theorem StoredAt.temp
    {target : Target Value Memory} {kept : Kept}
    {before after : Machine Value Memory} {temps high address : Nat}
    {result : Held Value × Store Value Memory}
    (stored :
      StoredAt target kept before (temps + 1) high address
        (.temp (temps + 1)) result after)
    (taken : temps + 1 ≤ high) :
    after.counter = address ∧ observe after = result.2 ∧
      Frame kept temps high before after ∧
      after.values (.temp (temps + 1)) = target.get result.2 result.1 := by
  obtain ⟨middle, observed, frame, rfl⟩ := stored
  have written : Operand.temp (temps + 1) ≠ .discard := nofun
  rw [State.store, if_neg written]
  refine ⟨rfl, ?_, ?_, ?_⟩
  · rw [observe_goTo, observe_assign_temp]
    exact observed
  · exact
      ((frame.widen (Nat.le_succ temps) (Nat.le_refl _)).assign_temp
        ⟨Nat.lt_succ_self temps, taken⟩ _).goTo _
  · simp [State.goTo, State.assign]

theorem StoredAt.word
    {target : Target Value Memory} {kept : Kept}
    {before after : Machine Value Memory} {low high address : Nat}
    {name : String} {result : Held Value × Store Value Memory}
    (stored :
      StoredAt target kept before low high address (.word name) result after) :
    after.counter = address ∧
      observe after =
        (if name = "_" then
          result.2
        else
          result.2.assign name (target.get result.2 result.1)) ∧
      Frame kept low high before after := by
  obtain ⟨middle, observed, frame, rfl⟩ := stored
  refine ⟨rfl, ?_, (frame.store_word name _).goTo _⟩
  rw [observe_goTo, observe_store_word, observed]

theorem StoredAt.result
    {target : Target Value Memory} {kept : Kept}
    {before after : Machine Value Memory} {low high address : Nat}
    {function : String} {result : Held Value × Store Value Memory}
    (stored :
      StoredAt target kept before low high address (.result function) result
        after) :
    after.counter = address ∧
      observe after =
        result.2.record function (target.get result.2 result.1) ∧
      Frame kept low high before after := by
  obtain ⟨middle, observed, frame, rfl⟩ := stored
  refine ⟨rfl, ?_, (frame.store_result function _).goTo _⟩
  rw [observe_goTo, observe_store_result, observed]

theorem exists_value_of_eval
    {target : Target Value Memory}
    {invoke : Callee → Store Value Memory → Option (Store Value Memory)}
    {expr : Expr} (computed : ¬ expr.IsAtom) {store : Store Value Memory}
    {result : Held Value × Store Value Memory}
    (evaluated : target.eval invoke expr store = some result) :
    ∃ value, result.1 = .value value := by
  cases expr with
  | atom truth text =>
      exact absurd trivial computed
  | binary truth operator lhs rhs =>
      rw [Target.eval] at evaluated
      obtain ⟨left, _, evaluated⟩ := Option.bind_eq_some_iff.mp evaluated
      obtain ⟨right, _, evaluated⟩ := Option.bind_eq_some_iff.mp evaluated
      cases evaluated
      exact ⟨_, rfl⟩
  | call truth callee args =>
      rw [Target.eval] at evaluated
      obtain ⟨passed, _, evaluated⟩ := Option.bind_eq_some_iff.mp evaluated
      obtain ⟨after, _, evaluated⟩ := Option.bind_eq_some_iff.mp evaluated
      cases evaluated
      exact ⟨_, rfl⟩
  | load truth cell index =>
      rw [Target.eval] at evaluated
      obtain ⟨place, _, evaluated⟩ := Option.bind_eq_some_iff.mp evaluated
      cases evaluated
      exact ⟨_, rfl⟩

variable [DecidableEq Value]

/-- The called functions do what execution says, leave alone what is kept and
come back to their callers. -/
structure Serves
    (target : Target Value Memory) (assembly : Assembly)
    (invoke : Callee → Store Value Memory → Option (Store Value Memory))
    (visits : Callee → Store Value Memory → List (Store Value Memory))
    (fuel : Nat) (kept : Kept) (callees : List Callee) : Prop where
  params : ∀ callee ∈ callees, ∀ param ∈ callee.params, PlainWord param
  resume : ∀ callee ∈ callees, ¬ kept.resume callee.name
  call : ∀ callee ∈ callees,
    ∃ home, assembly.labels.address? callee.home = some home ∧
      ∀ (state : Machine Value Memory) (back : Nat), state.counter = home →
        state.values (.resume callee.name) = target.address back →
          Leads target id assembly (fuel - 1) state
            (visits callee (observe state)) (invoke callee (observe state))
            fun store after =>
              after.counter = back ∧ observe after = store ∧
                Frame kept 0 0 state after

/-- The code that stores the value of an expression does so. -/
def Expr.Followed
    (target : Target Value Memory) (assembly : Assembly)
    (invoke : Callee → Store Value Memory → Option (Store Value Memory))
    (visits : Callee → Store Value Memory → List (Store Value Memory))
    (fuel : Nat) (kept : Kept) (expr : Expr) : Prop :=
  ∀ (operand : Operand) (temps start : Nat) (state : Machine Value Memory),
    operand.render ≠ "@counter" →
      (∀ number, temps < number →
        number ≤ (expr.lower (.into operand) temps).temps →
          kept.temp number) →
        assembly.Carries start
          (emitAll (expr.lower (.into operand) temps).code) →
          state.counter = start →
            Leads target id assembly fuel state
              (target.evalTrace invoke visits expr (observe state))
              (target.eval invoke expr (observe state))
              (StoredAt target kept state temps
                (expr.lower (.into operand) temps).temps
                (start + (expr.lower (.into operand) temps).code.length)
                operand)

section Follow

variable {target : Target Value Memory} {assembly : Assembly}
  {invoke : Callee → Store Value Memory → Option (Store Value Memory)}
  {visits : Callee → Store Value Memory → List (Store Value Memory)}
  {fuel : Nat} {kept : Kept} {callees : List Callee}

/-- The last instruction of the code stores the value. -/
theorem leads_stored
    {before middle : Machine Value Memory} {low high start address : Nat}
    {operand : Operand} {instruction : Instruction}
    {result : Held Value × Store Value Memory}
    (carries :
      assembly.Carries start (emitAll (storing operand instruction)))
    (uncounted : operand.render ≠ "@counter")
    (here : middle.counter = start)
    (observed : observe middle = result.2)
    (frame : Frame kept low high before middle)
    (performs :
      target.perform id assembly middle instruction =
        target.put id middle operand (target.get result.2 result.1))
    (behind : address = start + (storing operand instruction).length) :
    Leads target id assembly fuel middle [] (some result)
      (StoredAt target kept before low high address operand) := by
  subst behind
  exact
    leads_storing carries here uncounted performs
      ⟨middle, observed, frame, rfl⟩

theorem leads_anywhere
    {expr : Expr} {temps start : Nat} {state : Machine Value Memory}
    (followed : expr.Followed target assembly invoke visits fuel kept)
    (plain : ∀ word ∈ expr.words, PlainWord word)
    (own : ∀ number, temps < number →
      number ≤ (expr.lower .anywhere temps).temps → kept.temp number)
    (carries :
      assembly.Carries start (emitAll (expr.lower .anywhere temps).code))
    (here : state.counter = start) :
    Leads target id assembly fuel state
      (target.evalTrace invoke visits expr (observe state))
      (target.eval invoke expr (observe state))
      (EvaluatedAt kept state temps
        (start + (expr.lower .anywhere temps).code.length)
        (expr.lower .anywhere temps)) := by
  by_cases atom : expr.IsAtom
  · cases expr with
    | atom truth text =>
        rw [Expr.lower_anywhere_atom, Target.evalTrace, Target.eval]
        have plainText : PlainWord text := plain text (by simp [Expr.words])
        exact Leads.here ⟨here, rfl, Frame.refl state, .name plainText⟩
    | binary | call | load =>
        exact atom.elim
  · rw [Expr.lower_anywhere_eq_into atom] at own carries ⊢
    have taken :=
      Expr.temps_le_into expr (.temp (temps + 1)) (temps + 1)
    have stored :=
      followed (.temp (temps + 1)) (temps + 1) start state
        (Operand.render_ne_counter (Operand.dollared_temp _))
        (fun number above => own number (by omega)) carries here
    refine stored.mono ?_ (Nat.le_refl fuel)
    intro result after evaluated storedAt
    obtain ⟨counter, observed, frame, slot⟩ := storedAt.temp taken
    obtain ⟨value, held⟩ := exists_value_of_eval atom evaluated
    refine ⟨counter, observed, frame, ?_⟩
    rw [held] at slot ⊢
    rw [Expr.operand_lower_into]
    exact .value (Nat.lt_succ_self temps) taken slot

/-- Two operands are evaluated one after the other, and both values are there when
the operation is applied. -/
theorem leads_operands
    {Answer : Type} {lhs rhs : Expr} {temps start budget : Nat}
    {state : Machine Value Memory}
    {next : Held Value × Store Value Memory →
      Held Value × Store Value Memory → Option Answer}
    {seen : List (Store Value Memory)}
    {holds : Answer → Machine Value Memory → Prop}
    (more : Held Value × Store Value Memory →
      Held Value × Store Value Memory → List (Store Value Memory))
    (passed :
      seen =
        target.evalTrace invoke visits lhs (observe state) ++
          (target.eval invoke lhs (observe state)).elim [] fun left =>
            target.evalTrace invoke visits rhs left.2 ++
              (target.eval invoke rhs left.2).elim [] (more left))
    (fits : budget ≤ fuel)
    (lhsFollowed : lhs.Followed target assembly invoke visits fuel kept)
    (rhsFollowed : rhs.Followed target assembly invoke visits fuel kept)
    (lhsPlain : ∀ word ∈ lhs.words, PlainWord word)
    (rhsPlain : ∀ word ∈ rhs.words, PlainWord word)
    (own : ∀ number, temps < number →
      number ≤ (rhs.lower .anywhere (lhs.lower .anywhere temps).temps).temps →
        kept.temp number)
    (lhsCarried :
      assembly.Carries start (emitAll (lhs.lower .anywhere temps).code))
    (rhsCarried :
      assembly.Carries (start + (lhs.lower .anywhere temps).code.length)
        (emitAll
          (rhs.lower .anywhere (lhs.lower .anywhere temps).temps).code))
    (here : state.counter = start)
    (later : ∀ left right after,
      after.counter =
          start + (lhs.lower .anywhere temps).code.length +
            (rhs.lower .anywhere
              (lhs.lower .anywhere temps).temps).code.length →
        observe after = right.2 →
          Frame kept temps
              (rhs.lower .anywhere (lhs.lower .anywhere temps).temps).temps
              state after →
            target.value id after (lhs.lower .anywhere temps).operand =
                target.get right.2 left.1 →
              target.value id after
                  (rhs.lower .anywhere
                    (lhs.lower .anywhere temps).temps).operand =
                  target.get right.2 right.1 →
                Leads target id assembly budget after (more left right)
                  (next left right) holds) :
    Leads target id assembly budget state seen
      ((target.eval invoke lhs (observe state)).bind fun left =>
        (target.eval invoke rhs left.2).bind fun right => next left right)
      holds := by
  subst passed
  have lhsTemps := Expr.temps_le_lower lhs .anywhere temps
  have rhsTemps :=
    Expr.temps_le_lower rhs .anywhere (lhs.lower .anywhere temps).temps
  have ownLeft :
      ∀ number, temps < number →
        number ≤ (lhs.lower .anywhere temps).temps → kept.temp number :=
    fun number above below => own number above (by omega)
  have ownRight :
      ∀ number, (lhs.lower .anywhere temps).temps < number →
        number ≤
            (rhs.lower .anywhere (lhs.lower .anywhere temps).temps).temps →
          kept.temp number :=
    fun number above below => own number (by omega) below
  have first :=
    leads_anywhere lhsFollowed lhsPlain ownLeft lhsCarried here
  refine (first.le fits).bind ?_
  intro left between leftDone
  have second :=
    leads_anywhere rhsFollowed rhsPlain ownRight rhsCarried leftDone.counter
  rw [leftDone.observed] at second
  refine (second.le fits).bind ?_
  intro right after rightDone
  have leftValue :=
    leftDone.placed.value_eq target ownLeft rightDone.frame
  have rightValue :=
    rightDone.placed.value_eq target ownRight
      (Frame.refl after : Frame kept _ 0 after after)
  rw [rightDone.observed] at leftValue rightValue
  exact
    later left right after rightDone.counter rightDone.observed
      (leftDone.frame.append rightDone.frame lhsTemps rhsTemps) leftValue
      rightValue

namespace Expr

theorem followed_atom
    (truth : Truth) {text : String} (plain : PlainWord text) :
    (Expr.atom truth text).Followed target assembly invoke visits fuel kept := by
  intro operand temps start state uncounted own carries here
  rw [lower_into_atom] at carries ⊢
  rw [Target.evalTrace, Target.eval]
  refine
    leads_stored carries uncounted here rfl (Frame.refl state) ?_ rfl
  rw [Target.perform, Target.value_word state plain]
  rfl

theorem followed_binary
    (truth : Truth) (operator : Operator) {lhs rhs : Expr}
    (lhsFollowed : lhs.Followed target assembly invoke visits fuel kept)
    (rhsFollowed : rhs.Followed target assembly invoke visits fuel kept)
    (lhsPlain : ∀ word ∈ lhs.words, PlainWord word)
    (rhsPlain : ∀ word ∈ rhs.words, PlainWord word) :
    (Expr.binary truth operator lhs rhs).Followed target assembly invoke visits
      fuel kept := by
  intro operand temps start state uncounted own carries here
  rw [lower_into_binary] at own carries ⊢
  dsimp only at own carries ⊢
  rw [Assembly.carries_emitAll_append,
    Assembly.carries_emitAll_append] at carries
  obtain ⟨lhsCarried, rhsCarried, storeCarried⟩ := carries
  rw [Target.evalTrace, Target.eval]
  refine
    leads_operands (fun _ _ => []) (by simp only [elim_nil, List.append_nil])
      (Nat.le_refl fuel) lhsFollowed rhsFollowed lhsPlain rhsPlain own
      lhsCarried rhsCarried here ?_
  intro left right after counter observed frame leftValue rightValue
  refine leads_stored storeCarried uncounted counter observed frame ?_ ?_
  · rw [Target.perform, leftValue, rightValue]
    rfl
  · simp only [List.length_append, Nat.add_assoc]

theorem followed_load
    (truth : Truth) {cell : String} {index : Expr}
    (indexFollowed : index.Followed target assembly invoke visits fuel kept)
    (cellPlain : PlainWord cell)
    (indexPlain : ∀ word ∈ index.words, PlainWord word) :
    (Expr.load truth cell index).Followed target assembly invoke visits
      fuel kept := by
  intro operand temps start state uncounted own carries here
  rw [lower_into_load] at own carries ⊢
  dsimp only at own carries ⊢
  rw [Assembly.carries_emitAll_append] at carries
  obtain ⟨indexCarried, storeCarried⟩ := carries
  rw [Target.evalTrace, Target.eval]
  refine
    (leads_anywhere indexFollowed indexPlain own indexCarried here).bindNext ?_
  intro place after done
  have indexValue :=
    done.placed.value_eq target own
      (Frame.refl after : Frame kept _ 0 after after)
  have memory : after.memory = place.2.memory :=
    congrArg Store.memory done.observed
  rw [done.observed] at indexValue
  refine
    leads_stored storeCarried uncounted done.counter done.observed done.frame
      ?_ ?_
  · rw [Target.perform, Target.value_word after cellPlain, indexValue,
      done.observed, memory]
    rfl
  · simp only [List.length_append, Nat.add_assoc]

end Expr

/-! ## Calls -/

/-- The arguments of a call are in temporaries between two numbers. -/
def Passed
    (state : Machine Value Memory) (low high : Nat) (operands : List Operand)
    (values : List Value) : Prop :=
  ∃ numbers : List Nat,
    operands = numbers.map .temp ∧
      values = numbers.map (fun number => state.values (.temp number)) ∧
      ∀ number ∈ numbers, low < number ∧ number ≤ high

theorem leads_arguments
    {args : List Expr} {temps start : Nat} {state : Machine Value Memory}
    (followed : ∀ arg ∈ args,
      arg.Followed target assembly invoke visits fuel kept)
    (own : ∀ number, temps < number →
      number ≤ (Expr.lowerArguments temps args).temps → kept.temp number)
    (carries :
      assembly.Carries start (emitAll (Expr.lowerArguments temps args).code))
    (here : state.counter = start) :
    Leads target id assembly fuel state
      (target.evalAllTrace invoke visits args (observe state))
      (target.evalAll invoke args (observe state))
      fun result after =>
        after.counter =
            start + (Expr.lowerArguments temps args).code.length ∧
          observe after = result.2 ∧
          Frame kept temps (Expr.lowerArguments temps args).temps state after ∧
          Passed after temps (Expr.lowerArguments temps args).temps
            (Expr.lowerArguments temps args).operands result.1 := by
  induction args generalizing temps start state with
  | nil =>
      rw [Target.evalAllTrace, Target.evalAll]
      simp only [Expr.lowerArguments]
      exact
        Leads.here ⟨here, rfl, Frame.refl state, [], rfl, rfl, by simp⟩
  | cons argument others inductionHypothesis =>
      obtain ⟨firstFollowed, othersFollowed⟩ :=
        List.forall_mem_cons.mp followed
      simp only [Expr.lowerArguments, Expr.operand_lower_into] at own carries ⊢
      rw [Assembly.carries_emitAll_append] at carries
      have firstTemps :=
        Expr.temps_le_into argument (.temp (temps + 1)) (temps + 1)
      have othersTemps :=
        Expr.temps_le_lowerArguments
          (argument.lower (.into (.temp (temps + 1))) (temps + 1)).temps
          fun arg (_ : arg ∈ others) => Expr.temps_le_into arg
      have first :=
        firstFollowed (.temp (temps + 1)) (temps + 1) start state
          (Operand.render_ne_counter (Operand.dollared_temp _))
          (fun number above below => own number (by omega) (by omega))
          carries.1 here
      rw [Target.evalAllTrace, Target.evalAll]
      refine first.bind ?_
      intro result between storedAt
      obtain ⟨counter, observed, frame, slot⟩ := storedAt.temp firstTemps
      have rest :=
        inductionHypothesis othersFollowed
          (fun number above below => own number (by omega) below) carries.2
          counter
      rw [observed] at rest
      refine rest.bindNext ?_
      rintro others after
        ⟨othersCounter, othersObserved, othersFrame, numbers, operands, values,
          range⟩
      have slotKept :
          after.values (.temp (temps + 1)) = target.get result.2 result.1 := by
        rw [othersFrame.temp (temps + 1)
          (own _ (Nat.lt_succ_self temps) (by omega)) (Or.inl firstTemps), slot]
      refine
        Leads.here
          ⟨?_, othersObserved,
            frame.append othersFrame (by omega) othersTemps,
            (temps + 1) :: numbers, ?_, ?_, ?_⟩
      · rw [othersCounter, List.length_append, Nat.add_assoc]
      · rw [operands]
        rfl
      · rw [values, List.map_cons, slotKept]
      · refine List.forall_mem_cons.mpr ⟨by omega, ?_⟩
        intro number member
        have inside := range number member
        omega

/-- The parameters of a function are written one after the other. -/
theorem leads_passArguments
    {Answer : Type} {seen : List (Store Value Memory)}
    {answer : Option Answer}
    {holds : Answer → Machine Value Memory → Prop}
    {params : List String} {numbers : List Nat} {start : Nat}
    {state : Machine Value Memory} (kept : Kept)
    (plain : ∀ param ∈ params, PlainWord param)
    (carries :
      assembly.Carries start
        (emitAll
          (params.zipWith (fun param value => .set (.word param) value)
            (numbers.map .temp))))
    (here : state.counter = start)
    (later : ∀ after,
      after.counter =
          start +
            (params.zipWith
              (fun param value => Instruction.set (.word param) value)
              (numbers.map Operand.temp)).length →
        observe after =
            (observe state).assignAll params
              (numbers.map fun number => state.values (.temp number)) →
          Frame kept 0 0 state after →
            Leads target id assembly fuel after seen answer holds) :
    Leads target id assembly fuel state seen answer holds := by
  induction params generalizing numbers start state with
  | nil =>
      exact later state here rfl (Frame.refl state)
  | cons param others inductionHypothesis =>
      cases numbers with
      | nil =>
          exact later state here rfl (Frame.refl state)
      | cons number numbers =>
          obtain ⟨paramPlain, othersPlain⟩ := List.forall_mem_cons.mp plain
          let next : Machine Value Memory :=
            state.next.assign (.word param) (state.values (.temp number))
          have stepped : target.step id assembly state = some next := by
            rw [Target.step_of_perform (here ▸ carries.1), Target.perform,
              Target.value_of_dollared state (Operand.dollared_temp number),
              Target.put_of_ne state
                (show (Operand.word param).render ≠ _ from paramPlain.2)]
          have first : Frame kept 0 0 state next :=
            ((Frame.refl state).goTo _).assign_word param _
          have nextCounter : next.counter = start + 1 :=
            congrArg Nat.succ here
          refine
            Leads.stepped stepped
              (inductionHypothesis othersPlain carries.2 nextCounter ?_)
          intro after counter observed frame
          refine later after ?_ ?_ (first.trans frame)
          · rw [counter]
            simp only [List.map_cons, List.zipWith_cons_cons, List.length_cons]
            omega
          · rw [observed]
            simp only [List.map_cons, Store.assignAll, next,
              observe_assign_word, observe_next]
            simp [State.assign, State.next]

/-- A function is entered, and comes back behind the jump. -/
theorem leads_enter
    {callee : Callee} {start : Nat} {state : Machine Value Memory}
    (serves : Serves target assembly invoke visits fuel kept callees)
    (member : callee ∈ callees)
    (carries : assembly.Carries start (emitAll callee.enter))
    (here : state.counter = start) :
    Leads target id assembly fuel state (visits callee (observe state))
      (invoke callee (observe state))
      fun store after =>
        after.counter = start + 2 ∧ observe after = store ∧
          Frame kept 0 0 state after := by
  obtain ⟨home, homePlaced, served⟩ := serves.call callee member
  obtain ⟨recordHere, jumpHere, _⟩ := carries
  let recorded : Machine Value Memory :=
    state.next.assign (.resume callee.name) (target.address (start + 2))
  have record : target.step id assembly state = some recorded := by
    have oneValue : target.value id state (.word "1") = target.one := by
      rw [Target.value_word state ⟨by decide, by decide⟩, Target.read,
        target.literal_one, Option.getD_some]
    rw [Target.step_of_perform (here ▸ recordHere), Target.perform,
      Target.value_counter, oneValue, target.add_one, here,
      Target.put_of_ne state
        (Operand.render_ne_counter (Operand.dollared_resume callee.name))]
  have jump :
      target.step id assembly recorded = some (recorded.goTo home) := by
    have counter : recorded.counter = start + 1 := congrArg Nat.succ here
    exact Target.step_of_always (counter ▸ jumpHere) homePlaced
  have slot :
      (recorded.goTo home).values (.resume callee.name) =
        target.address (start + 2) := by
    simp [recorded, State.goTo, State.assign]
  have body := served (recorded.goTo home) (start + 2) rfl slot
  have observed : observe (recorded.goTo home) = observe state := by
    simp [recorded]
  rw [observed] at body
  have whole := (body.step jump).stepped record
  refine whole.mono ?_ (by omega)
  rintro store after _ ⟨counter, stored, frame⟩
  have entered : Frame kept 0 0 state (recorded.goTo home) :=
    (((Frame.refl state).goTo _).assign_resume (serves.resume callee member)
      _).goTo home
  exact ⟨counter, stored, entered.trans frame⟩

namespace Expr

theorem followed_call
    (truth : Truth) {callee : Callee} {args : List Expr}
    (serves : Serves target assembly invoke visits fuel kept callees)
    (member : callee ∈ callees)
    (followed : ∀ arg ∈ args,
      arg.Followed target assembly invoke visits fuel kept) :
    (Expr.call truth callee args).Followed target assembly invoke visits
      fuel kept := by
  intro operand temps start state uncounted own carries here
  rw [lower_into_call] at own carries ⊢
  dsimp only at own carries ⊢
  rw [Assembly.carries_emitAll_append, Assembly.carries_emitAll_append,
    Assembly.carries_emitAll_append] at carries
  obtain ⟨argsCarried, paramsCarried, enterCarried, storeCarried⟩ := carries
  rw [Target.evalTrace, Target.eval]
  refine (leads_arguments followed own argsCarried here).bind ?_
  rintro passed between
    ⟨counter, observed, frame, numbers, operands, values, range⟩
  rw [operands] at paramsCarried enterCarried storeCarried ⊢
  refine
    leads_passArguments kept (serves.params callee member) paramsCarried
      counter ?_
  intro ready readyCounter readyObserved readyFrame
  rw [observed, ← values] at readyObserved
  have called := leads_enter serves member enterCarried readyCounter
  rw [readyObserved] at called
  refine called.bindNext ?_
  rintro store after ⟨afterCounter, afterObserved, afterFrame⟩
  have wholeFrame :
      Frame kept temps (lowerArguments temps args).temps state after :=
    frame.trans (readyFrame.trans afterFrame).of_whole
  refine
    leads_stored storeCarried uncounted afterCounter afterObserved wholeFrame
      ?_ ?_
  · rw [Target.perform,
      Target.value_of_dollared after (Operand.dollared_result callee.name),
      ← afterObserved]
    rfl
  · simp only [List.length_append, Nat.add_assoc]

/-- The code of every expression of a plain program follows its evaluation. -/
theorem followed
    {expr : Expr} (serves : Serves target assembly invoke visits fuel kept callees)
    (plain : expr.Plain callees) :
    expr.Followed target assembly invoke visits fuel kept := by
  induction expr with
  | atom truth text =>
      exact followed_atom truth (plain.words text (by simp [words]))
  | binary truth operator lhs rhs lhsFollowed rhsFollowed =>
      exact
        followed_binary truth operator (lhsFollowed plain.left)
          (rhsFollowed plain.right) plain.left.words plain.right.words
  | call truth callee args argsFollowed =>
      refine followed_call truth serves plain.linked.1 ?_
      intro arg member
      exact argsFollowed arg member (plain.argument member)
  | load truth cell index indexFollowed =>
      have cellPlain : PlainWord cell := plain.words cell (by simp [words])
      exact
        followed_load truth (indexFollowed plain.index) cellPlain
          plain.index.words

end Expr

/-! ## Conditions -/

/-- The jump at the end of a condition is taken if the condition does not
hold. -/
theorem leads_jump
    {Answer : Type} {seen : List (Store Value Memory)}
    {answer : Option Answer}
    {holds : Answer → Machine Value Memory → Prop}
    {state : Machine Value Memory} {label : Label} {start place rounds : Nat}
    {operator : Operator} {lhs rhs : Operand} {condition : Prop}
    [Decidable condition]
    (carried :
      assembly.code[start]? =
        some (.jump label (.compare operator lhs rhs)))
    (placed : assembly.labels.address? label = some place)
    (here : state.counter = start)
    (complement :
      target.operate operator (target.value id state lhs)
          (target.value id state rhs) = target.zero ↔
        condition)
    (later :
      Leads target id assembly rounds
        (state.goTo (if condition then start + 1 else place)) seen answer
        holds) :
    Leads target id assembly (rounds + 1) state seen answer holds := by
  refine later.step ?_
  rw [Target.step_of_perform (here ▸ carried), Target.perform]
  by_cases holdsTrue : condition
  · have passes :
        ¬ target.taken id state (.compare operator lhs rhs) = true := by
      simp [Target.taken, complement.mpr holdsTrue]
    rw [if_neg passes, if_pos holdsTrue, ← here]
    rfl
  · have jumps :
        target.taken id state (.compare operator lhs rhs) = true := by
      simp [Target.taken, complement, holdsTrue]
    rw [if_pos jumps, if_neg holdsTrue, placed]
    rfl

theorem test_elim
    {Item : Type} (condition : Expr) (store : Store Value Memory)
    (more : Bool × Store Value Memory → List Item) :
    (target.test invoke condition store).elim [] more =
      (target.eval invoke condition store).elim [] fun result =>
        more (target.get result.2 result.1 ≠ target.zero, result.2) :=
  elim_bind _ _ more

theorem test_bind
    {Answer : Type} (condition : Expr) (store : Store Value Memory)
    (next : Bool × Store Value Memory → Option Answer) :
    (target.test invoke condition store).bind next =
      (target.eval invoke condition store).bind fun result =>
        next (target.get result.2 result.1 ≠ target.zero, result.2) :=
  Option.bind_assoc _ _ next

theorem test_binary_bind
    {Answer : Type} (truth : Truth) (operator : Operator) (lhs rhs : Expr)
    (store : Store Value Memory)
    (next : Bool × Store Value Memory → Option Answer) :
    (target.test invoke (.binary truth operator lhs rhs) store).bind next =
      (target.eval invoke lhs store).bind fun left =>
        (target.eval invoke rhs left.2).bind fun right =>
          next
            (target.operate operator (target.get right.2 left.1)
              (target.get right.2 right.1) ≠ target.zero, right.2) := by
  rw [test_bind, Target.eval]
  simp only [Option.bind_eq_bind, Option.bind_assoc, Option.bind_some]
  rfl

theorem evalTrace_binary_append
    (truth : Truth) (operator : Operator) (lhs rhs : Expr)
    (store : Store Value Memory)
    (more : Bool × Store Value Memory → List (Store Value Memory)) :
    target.evalTrace invoke visits (.binary truth operator lhs rhs) store ++
        (target.test invoke (.binary truth operator lhs rhs) store).elim []
          more =
      target.evalTrace invoke visits lhs store ++
        (target.eval invoke lhs store).elim [] fun left =>
          target.evalTrace invoke visits rhs left.2 ++
            (target.eval invoke rhs left.2).elim [] fun right =>
              more
                (target.operate operator (target.get right.2 left.1)
                  (target.get right.2 right.1) ≠ target.zero, right.2) := by
  rw [test_elim, Target.evalTrace, Target.eval, List.append_assoc]
  congr 1
  -- What the second operand adds stands behind the first one, if that has a value.
  cases target.eval invoke lhs store with
  | none =>
      rfl
  | some left =>
      simp only [Option.bind_eq_bind, Option.bind_some, Option.elim_some,
        elim_bind]
      rfl

/-- The code of a condition goes on behind itself if the condition holds, and to
its label if not.  It takes at least one step. -/
theorem leads_condition
    {Answer : Type} {condition : Expr} {label : Label}
    {temps start place budget rounds : Nat} {state : Machine Value Memory}
    {next : Bool × Store Value Memory → Option Answer}
    {more : Bool × Store Value Memory → List (Store Value Memory)}
    {holds : Answer → Machine Value Memory → Prop}
    (serves : Serves target assembly invoke visits fuel kept callees)
    (plain : condition.Plain callees)
    (own : ∀ number, temps < number →
      number ≤ (condition.lowerCondition label true temps).2 →
        kept.temp number)
    (carries :
      assembly.Carries start
        (emitAll (condition.lowerCondition label true temps).1))
    (placed : assembly.labels.address? label = some place)
    (here : state.counter = start)
    (fits : budget ≤ fuel) (progress : budget ≤ rounds + 1)
    (later : ∀ tested after,
      after.counter =
          (if tested.1 = true then
            start + (condition.lowerCondition label true temps).1.length
          else
            place) →
        observe after = tested.2 →
          Frame kept temps (condition.lowerCondition label true temps).2 state
              after →
            Leads target id assembly rounds after (more tested) (next tested)
              holds) :
    Leads target id assembly budget state
      (target.evalTrace invoke visits condition (observe state) ++
        (target.test invoke condition (observe state)).elim [] more)
      ((target.test invoke condition (observe state)).bind next) holds := by
  rcases Expr.lowerCondition_cases condition label temps with
    ⟨truth, operator, other, lhs, rhs, rfl, complement, shape⟩ | shape
  · have lhsPlain := plain.left
    have rhsPlain := plain.right
    simp only [shape] at own carries later
    rw [Assembly.carries_emitAll_append,
      Assembly.carries_emitAll_append] at carries
    obtain ⟨lhsCarried, rhsCarried, jumpCarried, _⟩ := carries
    rw [test_binary_bind]
    refine
      leads_operands _ (evalTrace_binary_append truth operator lhs rhs _ more)
        fits (Expr.followed serves lhsPlain)
        (Expr.followed serves rhsPlain) lhsPlain.words rhsPlain.words own
        lhsCarried rhsCarried here ?_
    intro left right after counter observed frame leftValue rightValue
    have disagree :=
      target.complement operator other complement (target.get right.2 left.1)
        (target.get right.2 right.1)
    rw [← leftValue, ← rightValue] at disagree ⊢
    refine (leads_jump jumpCarried placed counter disagree ?_).le progress
    refine later _ _ ?_ observed (frame.goTo _)
    simp only [State.goTo, decide_eq_true_eq, List.length_append,
      List.length_singleton, Nat.add_assoc]
  · simp only [shape] at own carries later
    rw [Assembly.carries_emitAll_append] at carries
    obtain ⟨valueCarried, jumpCarried, _⟩ := carries
    have evaluated :=
      leads_anywhere (Expr.followed serves plain) plain.words own valueCarried
        here
    rw [test_elim, test_bind]
    refine (evaluated.le fits).bind ?_
    intro result after done
    have resultValue :=
      done.placed.value_eq target own
        (Frame.refl after : Frame kept _ 0 after after)
    have zeroValue : target.value id after (.word "0") = target.zero := by
      rw [Target.value_word after ⟨by decide, by decide⟩, Target.read,
        target.literal_zero, Option.getD_some]
    rw [done.observed] at resultValue
    have disagree :
        target.operate .equal
            (target.value id after (condition.lower .anywhere temps).operand)
            (target.value id after (.word "0")) = target.zero ↔
          target.get result.2 result.1 ≠ target.zero := by
      rw [resultValue, zeroValue]
      exact target.equal_zero _
    refine (leads_jump jumpCarried placed done.counter disagree ?_).le progress
    refine later _ _ ?_ done.observed (done.frame.goTo _)
    simp only [State.goTo, decide_eq_true_eq, List.length_append,
      List.length_singleton, Nat.add_assoc]

end Follow

end FlatCode
