import FlatCode.Proofs.Access.Temporary
import FlatCode.Proofs.Relocation.Expr
import Mathlib.Order.Lattice

/-!
# A machine on ordered values

The values of this machine are totally ordered, and the six comparisons are those
of the order, with the result one or zero.  Nothing else is known of the operators:
an `OrderedTarget` fixes them, together with literals, memory and addresses.

Code of conditions runs straight ahead up to a conditional jump at its end.  A call
on the way is a given map of states; control comes back behind the jump.  What the
code does to a state is therefore a state and a decision: `OrderedTarget.decides`.

A call leaves the temporaries of its caller alone when it neither writes nor reads
them.  Such calls cannot tell the states of two runs apart that differ in these
temporaries only, so code runs the same way after the numbers of its temporaries
were raised: `OrderedTarget.run_shift`.
-/

namespace FlatCode

/-! ## Comparisons of an ordered type -/

section Comparisons

variable {Value : Type} [LinearOrder Value]

/-- What a comparison says of two values; no other operator says anything. -/
def Operator.compare? (lhs rhs : Value) : Operator → Option Bool
  | .equal => some (lhs = rhs)
  | .notEqual => some (lhs ≠ rhs)
  | .lessThan => some (lhs < rhs)
  | .lessThanEq => some (lhs ≤ rhs)
  | .greaterThan => some (rhs < lhs)
  | .greaterThanEq => some (rhs ≤ lhs)
  | _ => none

/-- The complement of a comparison says the opposite. -/
theorem Operator.compare?_complement
    {operator other : Operator}
    (complemented : operator.complement? = some other) (lhs rhs : Value) :
    ∃ holds, operator.compare? lhs rhs = some holds ∧
      other.compare? lhs rhs = some !holds := by
  cases operator <;> cases complemented <;>
    exact ⟨_, rfl, congrArg some (Bool.eq_iff_iff.mpr (by simp))⟩

end Comparisons

/-- Write an operand and go on.  Straight code does not write the address
counter. -/
def State.put?
    {Value Memory : Type} (state : State String Value Memory)
    (operand : Operand) (value : Value) :
    Option (State String Value Memory) :=
  if operand.render = "@counter" then
    none
  else
    some (state.next.assign operand.render value)

/-- The meaning of operators, literals, memory and addresses over an ordered
type. -/
structure OrderedTarget (Value Memory : Type) [LinearOrder Value] where
  zero : Value
  one : Value
  literal? : String → Option Value
  operate : Operator → Value → Value → Value
  /-- The content of a cell at an index. -/
  load : Value → Value → Memory → Value
  /-- Store a value into a cell at an index. -/
  save : Value → Value → Value → Memory → Memory
  address : Nat → Value
  one_ne_zero : one ≠ zero
  literal_zero : literal? "0" = some zero
  literal_temp : ∀ number, literal? (Operand.temp number).render = none
  operate_of_compare : ∀ operator lhs rhs holds,
    operator.compare? lhs rhs = some holds →
      operate operator lhs rhs = if holds then one else zero

namespace OrderedTarget

variable {Value Memory : Type} [LinearOrder Value]
  (target : OrderedTarget Value Memory)
  (call : Label → State String Value Memory → State String Value Memory)

def value (state : State String Value Memory) (operand : Operand) : Value :=
  if operand.render = "@counter" then
    target.address (state.counter + 1)
  else
    (target.literal? operand.render).getD (state.values operand.render)

def taken
    (state : State String Value Memory) (operator : Operator)
    (lhs rhs : Operand) : Bool :=
  target.operate operator (target.value state lhs) (target.value state rhs) ≠
    target.zero

/-- Carry out one instruction of straight code.  An unconditional jump is a call,
which comes back behind it. -/
def perform (state : State String Value Memory) :
    Instruction → Option (State String Value Memory)
  | .set result value => state.put? result (target.value state value)
  | .op operator result lhs rhs =>
      state.put? result
        (target.operate operator (target.value state lhs)
          (target.value state rhs))
  | .read result cell index =>
      state.put? result
        (target.load (target.value state cell) (target.value state index)
          state.memory)
  | .write value cell index =>
      some
        { state.next with
          memory :=
            target.save (target.value state value) (target.value state cell)
              (target.value state index) state.memory }
  | .jump home .always =>
      some { call home state with counter := state.counter + 1 }
  | .jump _ (.compare ..) | .raw _ | .halt => none
  | .noop => some state.next

def run :
    List Instruction → State String Value Memory →
      Option (State String Value Memory)
  | [], state => some state
  | instruction :: rest, state =>
      (target.perform call state instruction).bind (run rest)

/-- Carry out straight code and the conditional jump at its end: where the jump
goes, if it is made, and the state in which this is decided. -/
def decides (code : List Instruction) (state : State String Value Memory) :
    Option (Option Label × State String Value Memory) :=
  match code.getLast? with
  | some (.jump label (.compare operator lhs rhs)) =>
      (target.run call code.dropLast state).map fun after =>
        (if target.taken after operator lhs rhs then some label else none,
          after)
  | _ => none

variable {target} {call} {state after : State String Value Memory}

theorem run_append (first second : List Instruction) :
    target.run call (first ++ second) state =
      (target.run call first state).bind (target.run call second) := by
  induction first generalizing state with
  | nil =>
      rfl
  | cons instruction rest inductionHypothesis =>
      rw [List.cons_append, run, run, Option.bind_assoc]
      exact Option.bind_congr fun _ _ => inductionHypothesis

theorem decides_of_run
    {code : List Instruction} (ran : target.run call code state = some after)
    (label : Label) (operator : Operator) (lhs rhs : Operand) :
    target.decides call (code ++ [.jump label (.compare operator lhs rhs)])
        state =
      some
        (if target.taken after operator lhs rhs then some label else none,
          after) := by
  rw [decides, List.getLast?_concat, List.dropLast_concat]
  simp only [ran, Option.map_some]

/-! ## Values of operands -/

theorem value_temp (state : State String Value Memory) (number : Nat) :
    target.value state (.temp number) =
      state.values (Operand.temp number).render := by
  rw [value,
    if_neg (Operand.render_ne_counter (Operand.dollared_temp number)),
    target.literal_temp]
  rfl

theorem value_zero (state : State String Value Memory) :
    target.value state (.word "0") = target.zero := by
  simp [value, Operand.render, target.literal_zero]

theorem value_assign
    (state : State String Value Memory) (number : Nat) (value : Value) :
    target.value (state.assign (Operand.temp number).render value)
        (.temp number) =
      value := by
  rw [value_temp]
  exact if_pos rfl

/-- A jump on a comparison is made when the comparison holds. -/
theorem taken_of_compare
    {operator : Operator} {lhs rhs : Operand} {holds : Bool}
    (compared :
      operator.compare? (target.value state lhs) (target.value state rhs) =
        some holds) :
    target.taken state operator lhs rhs = holds := by
  rw [taken, target.operate_of_compare _ _ _ _ compared]
  cases holds <;> simp [target.one_ne_zero]

end OrderedTarget

/-! ## States that differ in some temporaries -/

section Agreement

variable {Value Memory : Type} {own : Nat → Prop} {amount : Nat}

/-- Two states have the same memory, and the same values but for temporaries whose
numbers are of a given kind. -/
structure AgreeOutside
    (own : Nat → Prop) (first second : State String Value Memory) : Prop where
  memory : first.memory = second.memory
  values : ∀ name,
    (∀ number, own number → name ≠ (Operand.temp number).render) →
      first.values name = second.values name

/-- Calls neither write nor read the temporaries of a given kind. -/
structure LeavesAlone
    (own : Nat → Prop)
    (call : Label → State String Value Memory → State String Value Memory) :
    Prop where
  writes : ∀ home state number, own number →
    (call home state).values (Operand.temp number).render =
      state.values (Operand.temp number).render
  reads : ∀ home first second, first.counter = second.counter →
    AgreeOutside own first second →
      AgreeOutside own (call home first) (call home second)

/-- The text of an operand is not that of a temporary of the given kind, unless the
operand is this temporary. -/
def Operand.Foreign (own : Nat → Prop) : Operand → Prop
  | .word text => ∀ number, own number → text ≠ (Operand.temp number).render
  | .temp _ | .resume _ | .result _ => True

theorem Operand.Foreign.render_ne
    {operand : Operand} (foreign : operand.Foreign own) {number : Nat}
    (owned : own number) (other : operand ≠ .temp number) :
    operand.render ≠ (Operand.temp number).render := by
  intro same
  cases operand with
  | word text =>
      exact foreign number owned same
  | temp | resume | result =>
      exact other (Operand.eq_of_render_temp (by trivial) same.symm).symm

/-- Two states before the same instruction that agree but for temporaries of a
given kind. -/
structure InStep
    (own : Nat → Prop) (first second : State String Value Memory) : Prop where
  counter : first.counter = second.counter
  agree : AgreeOutside own first second

/-- A temporary of the first state and the one of the second state whose number is
greater by `amount` are of the given kind and hold the same value. -/
structure Carried
    (own : Nat → Prop) (amount : Nat)
    (first second : State String Value Memory) (number : Nat) : Prop where
  owned : own number
  ownedAbove : own (number + amount)
  values :
    second.values (Operand.temp (number + amount)).render =
      first.values (Operand.temp number).render

/-- Two runs go on in step.  What is carried stays carried, and what was written is
carried too. -/
def GoOn
    (own : Nat → Prop) (amount : Nat)
    (first second : State String Value Memory) (written : Nat → Prop)
    (firstResult secondResult : Option (State String Value Memory)) : Prop :=
  ∃ firstAfter secondAfter,
    firstResult = some firstAfter ∧ secondResult = some secondAfter ∧
      InStep own firstAfter secondAfter ∧
      ∀ number, written number ∨ Carried own amount first second number →
        Carried own amount firstAfter secondAfter number

theorem AgreeOutside.refl (state : State String Value Memory) :
    AgreeOutside own state state :=
  ⟨rfl, fun _ _ => rfl⟩

variable {first second : State String Value Memory}

/-- Writing a temporary of the kind keeps the agreement. -/
theorem AgreeOutside.assign_right
    (agree : AgreeOutside own first second) {number : Nat}
    (owned : own number) (value : Value) :
    AgreeOutside own first
      (second.next.assign (Operand.temp number).render value) := by
  refine ⟨agree.memory, fun name foreign => ?_⟩
  rw [agree.values name foreign]
  exact (if_neg (foreign number owned)).symm

/-- Both runs write the same value, to temporaries whose numbers differ by `amount`
or to the same variable. -/
theorem InStep.put?
    (step : InStep own first second) {operand : Operand}
    (writable : operand.render ≠ "@counter") (foreign : operand.Foreign own)
    (owned : ∀ number, operand = .temp number →
      own number ∧ own (number + amount)) (value : Value) :
    GoOn own amount first second (fun number => operand = .temp number)
      (first.put? operand value)
      (second.put? (operand.shift amount) value) := by
  have writableAbove : (operand.shift amount).render ≠ "@counter" := by
    cases operand with
    | temp number =>
        exact Operand.render_ne_counter (Operand.dollared_temp _)
    | word | resume | result =>
        exact writable
  have foreignAbove : (operand.shift amount).Foreign own := by
    cases operand with
    | temp number =>
        trivial
    | word | resume | result =>
        exact foreign
  refine ⟨_, _, if_neg writable, if_neg writableAbove, ⟨?_, ?_⟩, ?_⟩
  · exact congrArg Nat.succ step.counter
  · refine ⟨step.agree.memory, fun name outside => ?_⟩
    simp only [State.assign, State.next, step.agree.values name outside]
    cases operand with
    | temp number =>
        obtain ⟨here, above⟩ := owned number rfl
        rw [if_neg (outside _ here), Operand.shift,
          if_neg (outside _ above)]
    | word | resume | result =>
        rfl
  · intro number known
    by_cases written : operand = .temp number
    · obtain ⟨here, above⟩ := owned number written
      subst written
      exact ⟨here, above, by simp [State.assign]⟩
    · obtain ⟨here, above, same⟩ := known.resolve_left written
      refine ⟨here, above, ?_⟩
      have otherAbove : operand.shift amount ≠ .temp (number + amount) := by
        cases operand <;> simp_all
      simp only [State.assign, State.next]
      rw [if_neg (foreign.render_ne here written).symm,
        if_neg (foreignAbove.render_ne above otherAbove).symm, same]

/-- Two runs go on in step if neither of them writes a temporary of the kind. -/
theorem goOn_of_kept
    {firstAfter secondAfter : State String Value Memory} {written : Nat → Prop}
    (unwritten : ∀ number, ¬ written number)
    (step : InStep own firstAfter secondAfter)
    (firstKept : ∀ number, own number →
      firstAfter.values (Operand.temp number).render =
        first.values (Operand.temp number).render)
    (secondKept : ∀ number, own number →
      secondAfter.values (Operand.temp number).render =
        second.values (Operand.temp number).render) :
    GoOn own amount first second written (some firstAfter)
      (some secondAfter) := by
  refine ⟨_, _, rfl, rfl, step, fun number known => ?_⟩
  obtain ⟨here, above, held⟩ := known.resolve_left (unwritten number)
  refine ⟨here, above, ?_⟩
  rw [firstKept number here, secondKept _ above, held]

end Agreement

def Instruction.GoesOn : Instruction → Prop
  | .set .. | .op .. | .read .. | .write .. | .jump _ .always | .noop => True
  | .jump _ (.compare ..) | .raw _ | .halt => False

/-- An instruction of straight code that does not write the address counter, and
that names temporaries of the given kind by their numbers only. -/
structure Instruction.Steady (own : Nat → Prop) (instruction : Instruction) :
    Prop where
  goesOn : instruction.GoesOn
  target : ∀ operand ∈ instruction.target?,
    operand.render ≠ "@counter" ∧ operand.Foreign own
  sources : ∀ operand ∈ instruction.sources, operand.Foreign own

namespace OrderedTarget

variable {Value Memory : Type} [LinearOrder Value]
  {target : OrderedTarget Value Memory}
  {call : Label → State String Value Memory → State String Value Memory}
  {own : Nat → Prop} {amount : Nat}
  {first second : State String Value Memory}

theorem value_shift
    (step : InStep own first second) {operand : Operand}
    (foreign : operand.Foreign own)
    (carried : ∀ number, operand = .temp number →
      Carried own amount first second number) :
    target.value second (operand.shift amount) =
      target.value first operand := by
  cases operand with
  | temp number =>
      rw [Operand.shift, value_temp, value_temp]
      exact (carried number rfl).values
  | word | resume | result =>
      rw [Operand.shift, value, value, step.counter,
        step.agree.values _ fun number owned =>
          foreign.render_ne owned nofun]

/-- An instruction does the same in both runs if the temporaries that it reads are
carried. -/
theorem perform_shift
    (leaves : LeavesAlone own call) (step : InStep own first second)
    {instruction : Instruction} (steady : instruction.Steady own)
    (owned : ∀ number, instruction.target? = some (.temp number) →
      own number ∧ own (number + amount))
    (carried : ∀ number, .temp number ∈ instruction.sources →
      Carried own amount first second number) :
    GoOn own amount first second
      (fun number => instruction.target? = some (.temp number))
      (target.perform call first instruction)
      (target.perform call second (instruction.shift amount)) := by
  have same :
      ∀ operand ∈ instruction.sources,
        target.value second (operand.shift amount) =
          target.value first operand := by
    intro operand member
    refine value_shift step (steady.sources operand member) ?_
    intro number temporary
    exact carried number (temporary ▸ member)
  have unwritten : ∀ number, ¬ none = some (Operand.temp number) :=
    fun number => (Option.some_ne_none (Operand.temp number)).symm
  cases instruction with
  | set result value =>
      simp only [Instruction.sources, List.mem_singleton, forall_eq] at same
      obtain ⟨writable, foreign⟩ := steady.target result rfl
      simp only [Instruction.shift, perform, same]
      simp only [Instruction.target?, Option.some_inj] at owned ⊢
      exact step.put? writable foreign owned _
  | op operator result lhs rhs =>
      simp only [Instruction.sources, List.forall_mem_cons] at same
      obtain ⟨writable, foreign⟩ := steady.target result rfl
      simp only [Instruction.shift, perform, same.1, same.2.1]
      simp only [Instruction.target?, Option.some_inj] at owned ⊢
      exact step.put? writable foreign owned _
  | read result cell index =>
      simp only [Instruction.sources, List.forall_mem_cons] at same
      obtain ⟨writable, foreign⟩ := steady.target result rfl
      simp only [Instruction.shift, perform, same.1, same.2.1,
        ← step.agree.memory]
      simp only [Instruction.target?, Option.some_inj] at owned ⊢
      exact step.put? writable foreign owned _
  | write value cell index =>
      simp only [Instruction.sources, List.forall_mem_cons] at same
      simp only [Instruction.shift, perform, same.1, same.2.1, same.2.2.1,
        ← step.agree.memory]
      exact
        goOn_of_kept unwritten
          ⟨congrArg Nat.succ step.counter, rfl, step.agree.values⟩
          (fun _ _ => rfl) fun _ _ => rfl
  | jump label condition =>
      cases condition with
      | always =>
          have agree :=
            leaves.reads label first second step.counter step.agree
          exact
            goOn_of_kept unwritten
              ⟨congrArg Nat.succ step.counter, agree.memory, agree.values⟩
              (leaves.writes label first) (leaves.writes label second)
      | compare operator lhs rhs =>
          exact steady.goesOn.elim
  | raw | halt =>
      exact steady.goesOn.elim
  | noop =>
      exact
        goOn_of_kept unwritten
          ⟨congrArg Nat.succ step.counter, step.agree.memory,
            step.agree.values⟩
          (fun _ _ => rfl) fun _ _ => rfl

theorem head?_accesses_of_mem_sources
    {instruction : Instruction} {operand : Operand}
    (member : operand ∈ instruction.sources) (rest : List Instruction) :
    (accesses operand (instruction :: rest)).head? = some .read := by
  obtain ⟨count, counted⟩ :=
    Nat.exists_eq_succ_of_ne_zero
      (Nat.ne_of_gt (List.count_pos_iff.mpr member))
  rw [accesses_cons, Instruction.events, counted]
  rfl

theorem write_mem_events {instruction : Instruction} {operand : Operand} :
    Event.write ∈ instruction.events operand ↔
      instruction.target? = some operand := by
  simp [Instruction.events]

/-- An instruction that does not write a variable leaves a read of it in front. -/
theorem head?_accesses_of_unwritten
    {instruction : Instruction} {operand : Operand} {rest : List Instruction}
    (unwritten : instruction.target? ≠ some operand)
    (read : (accesses operand rest).head? = some .read) :
    (accesses operand (instruction :: rest)).head? = some .read := by
  by_cases member : operand ∈ instruction.sources
  · exact head?_accesses_of_mem_sources member rest
  · have untouched : instruction.events operand = [] := by
      simp [Instruction.events, List.count_eq_zero.mpr member, unwritten]
    rw [accesses_cons, untouched]
    exact read

/-- Straight code does the same in both runs if the temporaries that it reads
before it writes them are carried. -/
theorem run_shift
    (leaves : LeavesAlone own call) (step : InStep own first second)
    {code : List Instruction}
    (steady : ∀ instruction ∈ code, instruction.Steady own)
    (owned : ∀ number, accesses (.temp number) code ≠ [] →
      own number ∧ own (number + amount))
    (carried : ∀ number,
      (accesses (.temp number) code).head? = some .read →
        Carried own amount first second number) :
    GoOn own amount first second
      (fun number => .write ∈ accesses (.temp number) code)
      (target.run call code first)
      (target.run call (code.map (Instruction.shift amount)) second) := by
  -- a temporary that the rest reads first is written by the head, or it is read
  -- first by the whole code, so it is carried in both cases
  induction code generalizing first second with
  | nil =>
      refine ⟨_, _, rfl, rfl, step, fun number known => ?_⟩
      exact known.resolve_left nofun
  | cons instruction rest inductionHypothesis =>
      obtain ⟨headSteady, restSteady⟩ := List.forall_mem_cons.mp steady
      have performed :
          GoOn own amount first second
            (fun number => instruction.target? = some (.temp number))
            (target.perform call first instruction)
            (target.perform call second (instruction.shift amount)) :=
        perform_shift leaves step headSteady
          (fun number written =>
            owned number
              (List.ne_nil_of_mem
                (List.mem_append_left _ (write_mem_events.mpr written))))
          (fun number member =>
            carried number (head?_accesses_of_mem_sources member rest))
      obtain ⟨firstNext, secondNext, firstStep, secondStep, stepNext, keeps⟩ :=
        performed
      have ran :=
        inductionHypothesis stepNext restSteady
          (fun number touched =>
            owned number (List.append_ne_nil_of_right_ne_nil _ touched))
          (fun number read => keeps number (by
            by_cases written : instruction.target? = some (.temp number)
            · exact Or.inl written
            · exact
                Or.inr
                  (carried number
                    (head?_accesses_of_unwritten written read))))
      obtain ⟨firstAfter, secondAfter, firstRun, secondRun, stepAfter,
        keepsRest⟩ := ran
      refine ⟨firstAfter, secondAfter, ?_, ?_, stepAfter, ?_⟩
      · rw [run, firstStep]
        exact firstRun
      · rw [List.map_cons, run, secondStep]
        exact secondRun
      · intro number known
        apply keepsRest
        rcases known with written | held
        · rcases List.mem_append.mp written with now | later
          · exact Or.inr (keeps number (Or.inl (write_mem_events.mp now)))
          · exact Or.inl later
        · exact Or.inr (keeps number (Or.inr held))

end OrderedTarget

end FlatCode
