import FlatCode.Proofs.Branching.Machine
import Mathlib.Data.Int.Order.Basic

/-!
# Comparisons tested by a jump

A condition that is a comparison is tested by the jump itself.  Any condition could
be tested in another way: its value is computed into a temporary, and the jump
compares the temporary with zero.  On ordered values both ways make the same
decision, for every condition and every state, and leave the same values in all
variables but the temporaries of the code: `Expr.lowerCondition_decides_as_computed`.

The code of the operands is the same both ways, but for the numbers of its
temporaries.  The names in a condition can be any names other than the address
counter and these temporaries.
-/

namespace FlatCode

namespace Expr

/-- Code that always computes an expression, and jumps to `target` when its value is
not zero, or when it is zero if `inverted`. -/
def lowerTest
    (target : Label) (inverted : Bool) (temps : Nat) (expr : Expr) :
    List Instruction × Nat :=
  let value := expr.lower (.into (.temp (temps + 1))) (temps + 1)
  let tested : Operator := if inverted then .equal else .notEqual
  (value.code ++
      [.jump target (.compare tested (.temp (temps + 1)) (.word "0"))],
    value.temps)

mutual

/-- The variables, literals and cells in an expression, and the parameters of the
functions that it calls. -/
def names : Expr → List String
  | .atom _ text => [text]
  | .binary _ _ lhs rhs => lhs.names ++ rhs.names
  | .call _ callee args => callee.params ++ namesAll args
  | .load _ cell index => cell :: index.names

def namesAll : List Expr → List String
  | [] => []
  | first :: others => first.names ++ namesAll others

end

theorem mem_namesAll
    {name : String} {arg : Expr} {args : List Expr} (member : arg ∈ args)
    (named : name ∈ arg.names) :
    name ∈ namesAll args := by
  induction args with
  | nil =>
      exact absurd member List.not_mem_nil
  | cons first others inductionHypothesis =>
      rw [namesAll]
      rcases List.mem_cons.mp member with rfl | later
      · exact List.mem_append_left _ named
      · exact List.mem_append_right _ (inductionHypothesis later)

end Expr

/-! ## Names in straight code -/

/-- A name that is neither the address counter nor a temporary of the given
kind. -/
structure Unreserved (own : Nat → Prop) (name : String) : Prop where
  counter : name ≠ "@counter"
  temp : ∀ number, own number → name ≠ (Operand.temp number).render

section Steady

variable {own : Nat → Prop}

theorem Operand.foreign_of_undollared
    {text : String} (undollared : Undollared text) :
    (Operand.word text).Foreign own := by
  rintro number _ rfl
  exact Operand.dollared_temp number undollared

def Operand.Writable (own : Nat → Prop) (operand : Operand) : Prop :=
  operand.render ≠ "@counter" ∧ operand.Foreign own

theorem Unreserved.writable
    {name : String} (unreserved : Unreserved own name) :
    (Operand.word name).Writable own :=
  ⟨unreserved.counter, unreserved.temp⟩

theorem Operand.writable_temp (own : Nat → Prop) (number : Nat) :
    (Operand.temp number).Writable own :=
  ⟨Operand.render_ne_counter (Operand.dollared_temp number), trivial⟩

theorem steady_storing
    {target : Operand} {instruction : Instruction}
    (steady : instruction.Steady own) :
    ∀ stored ∈ storing target instruction, stored.Steady own := by
  unfold storing
  split
  · simp
  · exact List.forall_mem_singleton.mpr steady

theorem steady_passArguments
    {callee : Callee} {values : List Operand}
    (params : ∀ param ∈ callee.params, Unreserved own param)
    (foreign : ∀ value ∈ values, value.Foreign own) :
    ∀ instruction ∈ callee.passArguments values, instruction.Steady own := by
  intro instruction member
  obtain ⟨position, bound, rfl⟩ := List.getElem_of_mem member
  simp only [Callee.passArguments, List.getElem_zipWith]
  refine ⟨trivial, ?_, ?_⟩
  · rintro operand ⟨⟩
    exact (params _ (List.getElem_mem _)).writable
  · exact List.forall_mem_singleton.mpr (foreign _ (List.getElem_mem _))

theorem steady_enter (callee : Callee) :
    ∀ instruction ∈ callee.enter, instruction.Steady own := by
  have resume : (Operand.resume callee.name).Writable own :=
    ⟨Operand.render_ne_counter (Operand.dollared_resume _), trivial⟩
  have sources :
      ∀ operand ∈ [Operand.counter, .word "1"], operand.Foreign own := by
    refine List.forall_mem_cons.mpr ⟨?_, List.forall_mem_singleton.mpr ?_⟩
    · exact Operand.foreign_of_undollared (by decide)
    · exact Operand.foreign_of_undollared (by decide)
  refine List.forall_mem_cons.mpr ⟨⟨trivial, ?_, sources⟩, ?_⟩
  · rintro operand ⟨⟩
    exact resume
  · exact List.forall_mem_singleton.mpr ⟨trivial, nofun, nofun⟩

end Steady

namespace Yields

variable {operands : List Operand} {low high number : Nat}
  {code : List Instruction}

theorem range_of_touched
    (yields : Yields operands low high code)
    (touched : accesses (.temp number) code ≠ []) :
    low < number ∧ number ≤ high := by
  by_contra away
  exact touched (yields.outside number (by omega)).1

theorem head?_ne_read (yields : Yields operands low high code) (number : Nat) :
    (accesses (.temp number) code).head? ≠ some .read := by
  by_cases within : low < number ∧ number ≤ high
  · rcases yields.inside number within.1 within.2 with
      ⟨written, _⟩ | ⟨written, _⟩
    · simp [written]
    · simp [written]
  · simp [(yields.outside number (by omega)).1]

theorem write_mem_of_mem
    (yields : Yields operands low high code)
    (member : .temp number ∈ operands) :
    .write ∈ accesses (.temp number) code := by
  have counted := List.count_pos_iff.mpr member
  by_cases within : low < number ∧ number ≤ high
  · rcases yields.inside number within.1 within.2 with
      ⟨written, _⟩ | ⟨written, _⟩
    · simp [written]
    · simp [written]
  · have unused := (yields.outside number (by omega)).2
    omega

end Yields

namespace Expr

variable {own : Nat → Prop}

theorem foreign_operand
    {expr : Expr} (names : ∀ name ∈ expr.names, Unreserved own name)
    (temps : Nat) :
    (expr.lower .anywhere temps).operand.Foreign own := by
  by_cases atom : expr.IsAtom
  · cases expr with
    | atom truth text =>
        rw [lower_anywhere_atom]
        exact (names text (by simp [Expr.names])).temp
    | binary | call | load =>
        exact atom.elim
  · rw [lower_anywhere_eq_into atom, operand_lower_into]
    trivial

theorem foreign_lowerArguments (temps : Nat) (args : List Expr) :
    ∀ operand ∈ (lowerArguments temps args).operands,
      operand.Foreign own := by
  induction args generalizing temps with
  | nil =>
      simp [lowerArguments]
  | cons first others inductionHypothesis =>
      simp only [lowerArguments, operand_lower_into]
      exact List.forall_mem_cons.mpr ⟨trivial, inductionHypothesis _⟩

theorem steady_anywhere
    {expr : Expr} (temps : Nat)
    (steady : ∀ target temps, target.Writable own →
      ∀ instruction ∈ (expr.lower (.into target) temps).code,
        instruction.Steady own) :
    ∀ instruction ∈ (expr.lower .anywhere temps).code,
      instruction.Steady own := by
  by_cases atom : expr.IsAtom
  · cases expr with
    | atom truth text =>
        simp [lower_anywhere_atom]
    | binary | call | load =>
        exact atom.elim
  · rw [lower_anywhere_eq_into atom]
    exact steady _ _ (Operand.writable_temp own _)

theorem steady_lowerArguments
    {args : List Expr} (temps : Nat)
    (steady : ∀ arg ∈ args, ∀ target temps, target.Writable own →
      ∀ instruction ∈ (arg.lower (.into target) temps).code,
        instruction.Steady own) :
    ∀ instruction ∈ (lowerArguments temps args).code,
      instruction.Steady own := by
  induction args generalizing temps with
  | nil =>
      simp [lowerArguments]
  | cons first others inductionHypothesis =>
      rw [List.forall_mem_cons] at steady
      simp only [lowerArguments]
      exact
        List.forall_mem_append.mpr
          ⟨steady.1 _ _ (Operand.writable_temp own _),
            inductionHypothesis _ steady.2⟩

theorem steady_into
    {expr : Expr} (names : ∀ name ∈ expr.names, Unreserved own name)
    {target : Operand} (temps : Nat) (writable : target.Writable own) :
    ∀ instruction ∈ (expr.lower (.into target) temps).code,
      instruction.Steady own := by
  induction expr generalizing target temps with
  | atom truth text =>
      rw [lower_into_atom]
      have named := (names text (by simp [Expr.names])).temp
      refine steady_storing ⟨trivial, ?_, ?_⟩
      · rintro operand ⟨⟩
        exact writable
      · exact List.forall_mem_singleton.mpr named
  | binary truth operator lhs rhs lhsSteady rhsSteady =>
      simp only [Expr.names, List.forall_mem_append] at names
      simp only [lower_into_binary, List.forall_mem_append]
      refine ⟨?_, ?_, steady_storing ⟨trivial, ?_, ?_⟩⟩
      · exact steady_anywhere temps fun _ => lhsSteady names.1
      · exact steady_anywhere _ fun _ => rhsSteady names.2
      · rintro operand ⟨⟩
        exact writable
      · exact
          List.forall_mem_cons.mpr
            ⟨foreign_operand names.1 temps,
              List.forall_mem_singleton.mpr (foreign_operand names.2 _)⟩
  | call truth callee args argsSteady =>
      simp only [Expr.names, List.forall_mem_append] at names
      simp only [lower_into_call, List.forall_mem_append]
      refine ⟨?_, ?_, steady_enter callee, steady_storing ⟨trivial, ?_, ?_⟩⟩
      · exact
          steady_lowerArguments temps fun arg member _ =>
            argsSteady arg member fun name named =>
              names.2 name (mem_namesAll member named)
      · exact steady_passArguments names.1 (foreign_lowerArguments temps args)
      · rintro operand ⟨⟩
        exact writable
      · exact List.forall_mem_singleton.mpr trivial
  | load truth cell index indexSteady =>
      simp only [Expr.names, List.forall_mem_cons] at names
      simp only [lower_into_load, List.forall_mem_append]
      refine ⟨?_, steady_storing ⟨trivial, ?_, ?_⟩⟩
      · exact steady_anywhere temps fun _ => indexSteady names.2
      · rintro operand ⟨⟩
        exact writable
      · exact
          List.forall_mem_cons.mpr
            ⟨names.1.temp,
              List.forall_mem_singleton.mpr (foreign_operand names.2 temps)⟩

theorem steady_lower_anywhere
    {expr : Expr} (names : ∀ name ∈ expr.names, Unreserved own name)
    (temps : Nat) :
    ∀ instruction ∈ (expr.lower .anywhere temps).code,
      instruction.Steady own :=
  steady_anywhere temps fun _ => steady_into names

end Expr

/-! ## Two ways to test a condition -/

/-- Two runs of conditions make the same decision, and their states agree but for
temporaries of the given kind. -/
def SameDecision
    {Value Memory : Type} (own : Nat → Prop)
    (first second : Option (Option Label × State String Value Memory)) :
    Prop :=
  ∃ decision firstAfter secondAfter,
    first = some (decision, firstAfter) ∧
      second = some (decision, secondAfter) ∧
      AgreeOutside own firstAfter secondAfter

namespace OrderedTarget

variable {Value Memory : Type} [LinearOrder Value]
  {target : OrderedTarget Value Memory}
  {call : Label → State String Value Memory → State String Value Memory}
  {state : State String Value Memory} {own : Nat → Prop}

/-- Comparing a truth value with zero tests it. -/
theorem taken_computed
    {number : Nat} {holds : Bool}
    (computed :
      target.value state (.temp number) =
        if holds then target.one else target.zero)
    (inverted : Bool) :
    target.taken state (if inverted then .equal else .notEqual)
        (.temp number) (.word "0") =
      (holds != inverted) := by
  cases inverted <;> apply taken_of_compare <;>
    cases holds <;>
    simp_all [Operator.compare?, value_zero, target.one_ne_zero]

/-- The jump on a comparison, or on its complement, tests it too. -/
theorem taken_compared
    {operator other : Operator} {lhs rhs : Operand} {holds : Bool}
    (complemented : operator.complement? = some other)
    (compared :
      operator.compare? (target.value state lhs) (target.value state rhs) =
        some holds)
    (inverted : Bool) :
    target.taken state (if inverted then other else operator) lhs rhs =
      (holds != inverted) := by
  obtain ⟨said, here, opposite⟩ :=
    Operator.compare?_complement complemented (target.value state lhs)
      (target.value state rhs)
  cases compared.symm.trans here
  cases inverted with
  | false =>
      simpa using taken_of_compare compared
  | true =>
      simpa using taken_of_compare opposite

variable (target call) in
theorem exists_perform
    {instruction : Instruction} (steady : instruction.Steady own)
    (state : State String Value Memory) :
    ∃ after, target.perform call state instruction = some after := by
  cases instruction with
  | set result _ | op _ result _ _ | read result _ _ =>
      exact ⟨_, if_neg (steady.target result rfl).1⟩
  | jump label condition =>
      cases condition with
      | always =>
          exact ⟨_, rfl⟩
      | compare =>
          exact steady.goesOn.elim
  | raw | halt =>
      exact steady.goesOn.elim
  | write | noop =>
      exact ⟨_, rfl⟩

variable (target call) in
theorem exists_run
    {code : List Instruction}
    (steady : ∀ instruction ∈ code, instruction.Steady own)
    (state : State String Value Memory) :
    ∃ after, target.run call code state = some after := by
  induction code generalizing state with
  | nil =>
      exact ⟨state, rfl⟩
  | cons instruction rest inductionHypothesis =>
      obtain ⟨headSteady, restSteady⟩ := List.forall_mem_cons.mp steady
      obtain ⟨next, performed⟩ := exists_perform target call headSteady state
      obtain ⟨after, ran⟩ := inductionHypothesis restSteady next
      refine ⟨after, ?_⟩
      rw [run, performed]
      exact ran

theorem sameDecision_of_runs
    {first second : List Instruction}
    {firstAfter secondAfter : State String Value Memory}
    (firstRan : target.run call first state = some firstAfter)
    (secondRan : target.run call second state = some secondAfter)
    (agree : AgreeOutside own firstAfter secondAfter)
    {operator tested : Operator} {lhs rhs left right : Operand}
    (same :
      target.taken firstAfter operator lhs rhs =
        target.taken secondAfter tested left right)
    (label : Label) :
    SameDecision own
      (target.decides call
        (first ++ [.jump label (.compare operator lhs rhs)]) state)
      (target.decides call
        (second ++ [.jump label (.compare tested left right)]) state) := by
  refine ⟨_, firstAfter, secondAfter, decides_of_run firstRan .., ?_, agree⟩
  rw [decides_of_run secondRan, same]

/-- A variable or a literal is compared with zero where it stands, or behind a copy
of it. -/
theorem sameDecision_atom
    {temps : Nat} (owned : own (temps + 1)) (truth : Truth) (text : String)
    (label : Label) (inverted : Bool) :
    SameDecision own
      (target.decides call
        ((Expr.atom truth text).lowerCondition label inverted temps).1 state)
      (target.decides call
        ((Expr.atom truth text).lowerTest label inverted temps).1 state) := by
  rw [Expr.lowerTest, Expr.lower_into_atom]
  have copied :
      target.run call [.set (.temp (temps + 1)) (.word text)] state =
        some
          (state.next.assign (Operand.temp (temps + 1)).render
            (target.value state (.word text))) := by
    rw [run, perform, State.put?, if_neg (Operand.writable_temp own _).1]
    rfl
  have straight : target.run call [] state = some state := rfl
  have agree := (AgreeOutside.refl state).assign_right owned
    (target.value state (.word text))
  refine sameDecision_of_runs straight copied agree ?_ label
  rw [taken, taken, value_assign, value_zero, value_zero,
    Expr.lower_anywhere_atom]

/-- The operands of a comparison are computed to the same values with one more
temporary in use. -/
theorem run_operands
    (target : OrderedTarget Value Memory) (leaves : LeavesAlone own call)
    {lhs rhs : Expr} (lhsNames : ∀ name ∈ lhs.names, Unreserved own name)
    (rhsNames : ∀ name ∈ rhs.names, Unreserved own name) (temps : Nat)
    (state : State String Value Memory) :
    let left := lhs.lower .anywhere temps
    let right := rhs.lower .anywhere left.temps
    let code := left.code ++ right.code
    (∀ number, temps < number → number ≤ right.temps + 1 → own number) →
      ∃ first second,
        target.run call code state = some first ∧
          target.run call (code.map (Instruction.shift 1)) state =
            some second ∧
          AgreeOutside own first second ∧
          target.value second (left.operand.shift 1) =
            target.value first left.operand ∧
          target.value second (right.operand.shift 1) =
            target.value first right.operand := by
  intro left right code owned
  have yields : Yields [left.operand, right.operand] temps right.temps code :=
    (Expr.yields_lower_anywhere lhs temps).append
      (Expr.yields_lower_anywhere rhs left.temps)
  have steady : ∀ instruction ∈ code, instruction.Steady own :=
    List.forall_mem_append.mpr
      ⟨Expr.steady_lower_anywhere lhsNames temps,
        Expr.steady_lower_anywhere rhsNames left.temps⟩
  have foreign : ∀ operand ∈ [left.operand, right.operand],
      operand.Foreign own :=
    List.forall_mem_cons.mpr
      ⟨Expr.foreign_operand lhsNames temps,
        List.forall_mem_singleton.mpr
          (Expr.foreign_operand rhsNames left.temps)⟩
  have ownedTemps : ∀ number, accesses (.temp number) code ≠ [] →
      own number ∧ own (number + 1) := by
    intro number touched
    obtain ⟨above, below⟩ := yields.range_of_touched touched
    exact ⟨owned number above (by omega), owned _ (by omega) (by omega)⟩
  -- both runs start from one state, and no temporary is read before it is written
  have ran :
      GoOn own 1 state state
        (fun number => .write ∈ accesses (.temp number) code)
        (target.run call code state)
        (target.run call (code.map (Instruction.shift 1)) state) :=
    run_shift leaves ⟨rfl, AgreeOutside.refl state⟩ steady ownedTemps
      fun number read => absurd read (yields.head?_ne_read number)
  obtain ⟨first, second, firstRan, secondRan, step, carried⟩ := ran
  have same : ∀ operand ∈ [left.operand, right.operand],
      target.value second (operand.shift 1) = target.value first operand := by
    intro operand member
    refine value_shift step (foreign operand member) ?_
    rintro number rfl
    exact carried number (Or.inl (yields.write_mem_of_mem member))
  exact
    ⟨first, second, firstRan, secondRan, step.agree,
      same left.operand (List.mem_cons_self ..),
      same right.operand (List.mem_cons_of_mem _ (List.mem_cons_self ..))⟩

/-- With a comparison, the jump tests what the other way computes first. -/
theorem sameDecision_comparison
    (leaves : LeavesAlone own call) {operator other : Operator}
    (complemented : operator.complement? = some other) {lhs rhs : Expr}
    (lhsNames : ∀ name ∈ lhs.names, Unreserved own name)
    (rhsNames : ∀ name ∈ rhs.names, Unreserved own name)
    {temps : Nat} (label : Label) (inverted : Bool) :
    let left := lhs.lower .anywhere temps
    let right := rhs.lower .anywhere left.temps
    let code := left.code ++ right.code
    (∀ number, temps < number → number ≤ right.temps + 1 → own number) →
      SameDecision own
        (target.decides call
          (code ++
            [.jump label
              (.compare (if inverted then other else operator) left.operand
                right.operand)]) state)
        (target.decides call
          (code.map (Instruction.shift 1) ++
            [.op operator (.temp (temps + 1)) (left.operand.shift 1)
              (right.operand.shift 1)] ++
            [.jump label
              (.compare (if inverted then .equal else .notEqual)
                (.temp (temps + 1)) (.word "0"))]) state) := by
  intro left right code owned
  obtain ⟨first, second, firstRan, secondRan, agree, leftSame, rightSame⟩ :=
    run_operands target leaves lhsNames rhsNames temps state owned
  obtain ⟨holds, compared, _⟩ :=
    Operator.compare?_complement complemented
      (target.value first left.operand) (target.value first right.operand)
  have operated := target.operate_of_compare _ _ _ _ compared
  have computed :
      target.run call
          (code.map (Instruction.shift 1) ++
            [.op operator (.temp (temps + 1)) (left.operand.shift 1)
              (right.operand.shift 1)]) state =
        some
          (second.next.assign (Operand.temp (temps + 1)).render
            (if holds then target.one else target.zero)) := by
    rw [run_append, secondRan, Option.bind_some, run, perform, leftSame,
      rightSame, operated, State.put?,
      if_neg (Operand.writable_temp own _).1]
    rfl
  have ordered : temps ≤ right.temps :=
    Nat.le_trans (lhs.temps_le_lower .anywhere temps)
      (rhs.temps_le_lower .anywhere _)
  have agreeAfter :=
    agree.assign_right (owned (temps + 1) (by omega) (by omega))
      (if holds then target.one else target.zero)
  refine sameDecision_of_runs firstRan computed agreeAfter ?_ label
  rw [taken_compared complemented compared]
  exact (taken_computed (value_assign ..) inverted).symm

end OrderedTarget

namespace Expr

/-- Computing a comparison takes one temporary more than testing it by a jump. -/
theorem lowerTest_binary
    (truth : Truth) (operator : Operator) (lhs rhs : Expr) (label : Label)
    (inverted : Bool) (temps : Nat) :
    (Expr.binary truth operator lhs rhs).lowerTest label inverted temps =
      let left := lhs.lower .anywhere temps
      let right := rhs.lower .anywhere left.temps
      ((left.code ++ right.code).map (Instruction.shift 1) ++
          [.op operator (.temp (temps + 1)) (left.operand.shift 1)
            (right.operand.shift 1)] ++
          [.jump label
            (.compare (if inverted then .equal else .notEqual)
              (.temp (temps + 1)) (.word "0"))],
        right.temps + 1) := by
  have left := lower_shift 1 lhs .anywhere temps
  have right := lower_shift 1 rhs .anywhere (lhs.lower .anywhere temps).temps
  simp only [Destination.shift, Computed.shift] at left right
  simp only [lowerTest, lower_into_binary, left, right, storing,
    List.map_append, List.append_assoc]
  rfl

/-- Testing a condition decides as computing it and comparing its value with zero
does, and leaves the same values outside the temporaries of the code.  The calls in
the condition can do anything but write or read these temporaries. -/
theorem lowerCondition_decides_as_computed
    {Value Memory : Type} [LinearOrder Value]
    (target : OrderedTarget Value Memory)
    (call : Label → State String Value Memory → State String Value Memory)
    (own : Nat → Prop) (leaves : LeavesAlone own call)
    (expr : Expr) (names : ∀ name ∈ expr.names, Unreserved own name)
    (label : Label) (inverted : Bool) (temps : Nat)
    (owned : ∀ number, temps < number →
      number ≤ (expr.lowerTest label inverted temps).2 → own number)
    (state : State String Value Memory) :
    SameDecision own
      (target.decides call (expr.lowerCondition label inverted temps).1 state)
      (target.decides call (expr.lowerTest label inverted temps).1 state) := by
  rcases comparison_cases expr with comparison | plain
  · obtain ⟨truth, operator, other, lhs, rhs, rfl, complemented⟩ := comparison
    rw [lowerTest_binary] at owned ⊢
    rw [lowerCondition_comparison label inverted temps complemented]
    simp only [Expr.names, List.forall_mem_append] at names
    simp only [← List.append_assoc]
    exact
      OrderedTarget.sameDecision_comparison leaves complemented names.1
        names.2 label inverted owned
  · have first : own (temps + 1) :=
      owned (temps + 1) (Nat.lt_succ_self _)
        (expr.temps_le_lower (.into (.temp (temps + 1))) (temps + 1))
    by_cases atom : expr.IsAtom
    · cases expr with
      | atom truth text =>
          exact
            OrderedTarget.sameDecision_atom first truth text label inverted
      | binary | call | load =>
          exact atom.elim
    · have steady :=
        steady_into names (temps + 1) (Operand.writable_temp own (temps + 1))
      obtain ⟨after, ran⟩ :=
        target.exists_run call steady state
      rw [lowerCondition_value label inverted temps plain, lowerTest,
        lower_anywhere_eq_into atom]
      simp only [operand_lower_into]
      exact
        OrderedTarget.sameDecision_of_runs ran ran (AgreeOutside.refl after)
          rfl label

end Expr

/-! ## A comparison with a call on integers -/

theorem digits?_zero : digits? "0" = some 0 :=
  integers.literal_zero

theorem digits?_temp (number : Nat) :
    digits? (Operand.temp number).render = none :=
  integers.literal_dollar _ (Operand.dollared_temp number)

theorem Operator.onIntegers_of_compare
    (operator : Operator) (lhs rhs : Int) (holds : Bool)
    (compared : operator.compare? lhs rhs = some holds) :
    operator.onIntegers lhs rhs = if holds then 1 else 0 := by
  cases operator <;> cases compared <;> grind [Operator.onIntegers]

def orderedIntegers : OrderedTarget Int (Int → Int → Int) where
  zero := 0
  one := 1
  literal? := digits?
  operate := Operator.onIntegers
  load := integers.load
  save := integers.save
  address number := number
  one_ne_zero := Int.one_ne_zero
  literal_zero := digits?_zero
  literal_temp := digits?_temp
  operate_of_compare := Operator.onIntegers_of_compare

/-- A function that counts its calls in `y` and returns its argument `n` with the
number of earlier calls added. -/
def countingCall (_ : Label) (state : State String Int (Int → Int → Int)) :
    State String Int (Int → Int → Int) :=
  (state.assign "y" (state.values "y" + 1)).assign "$ret$f"
    (state.values "n" + state.values "y")

theorem leavesAlone_countingCall :
    LeavesAlone (fun _ => True) countingCall := by
  have plain : ∀ text, Undollared text → ∀ number, True →
      text ≠ (Operand.temp number).render :=
    fun _ undollared => Operand.foreign_of_undollared undollared
  have result : ∀ number, "$ret$f" ≠ (Operand.temp number).render := by
    intro number same
    exact
      nomatch Operand.eq_of_render_temp
        (show (Operand.result "f").Proper from trivial) same.symm
  refine ⟨fun home state number _ => ?_, fun home first second _ agree => ?_⟩
  · have count := (plain "y" (by decide) number trivial).symm
    simp [countingCall, State.assign, (result number).symm, count]
  · have argument := agree.values "n" (plain _ (by decide))
    have count := agree.values "y" (plain _ (by decide))
    refine ⟨agree.memory, fun name outside => ?_⟩
    simp only [countingCall, State.assign, argument, count,
      agree.values name outside]

namespace Expr

theorem lowerCondition_decides_as_computed_of_call :
    let compared : Expr :=
      .binary .plain .lessThan
        (.call .plain ⟨"f", ["n"], ⟨3⟩⟩ [.atom .plain "x"]) (.atom .plain "y")
    let start : State String Int (Int → Int → Int) :=
      ⟨10, fun name => if name = "x" then 5 else if name = "y" then 2 else 0,
        fun _ _ => 0⟩
    (∀ name ∈ compared.names, Unreserved (fun _ => True) name) ∧
      (orderedIntegers.decides countingCall
          (compared.lowerCondition ⟨8⟩ true 0).1 start).map Prod.fst =
        some (some ⟨8⟩) ∧
      SameDecision (fun _ => True)
        (orderedIntegers.decides countingCall
          (compared.lowerCondition ⟨8⟩ true 0).1 start)
        (orderedIntegers.decides countingCall
          (compared.lowerTest ⟨8⟩ true 0).1 start) := by
  intro compared start
  have names : ∀ name ∈ compared.names, Unreserved (fun _ => True) name := by
    have plain : ∀ name ∈ ["n", "x", "y"],
        name ≠ "@counter" ∧ Undollared name := by
      decide
    intro name member
    obtain ⟨counter, undollared⟩ := plain name member
    exact ⟨counter, Operand.foreign_of_undollared undollared⟩
  exact
    ⟨names, by decide +kernel,
      lowerCondition_decides_as_computed orderedIntegers countingCall
        (fun _ => True) leavesAlone_countingCall compared names ⟨8⟩ true 0
        (fun _ _ _ => trivial) start⟩

end Expr

end FlatCode
