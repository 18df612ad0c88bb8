import FlatCode.Proofs.Placement
import FlatCode.Proofs.Reading.Word

/-!
# Where control can go

The control flow of assembled code is a graph on its addresses:

* a jump without condition goes to its target, and a jump with one to its target
  or to the next address;
* the two instructions that enter a function are followed by the address behind
  them, as if the function had come back;
* the instruction that leaves a function and the one that stops the machine have
  no successor;
* every other instruction is followed by the next address.

From the home of a function, control stays in the block of that function, and
from the start of a program it stays in the main part or comes to the end of it.
The proof goes over statements: control leaves the code of a statement behind its
end, unless the statement returns, or by a jump of the innermost loop around it.
-/

namespace FlatCode

open Entry

theorem PlainWord.ne_counter
    {text : String} (plain : PlainWord text) :
    Operand.word text ≠ .counter := by
  intro same
  exact plain.2 (Operand.word.inj same)

theorem Expr.Plain.ne_counter
    {functions : List Callee} {expr : Expr} (plain : expr.Plain functions) :
    ∀ word ∈ expr.words, Operand.word word ≠ .counter :=
  fun word member => (plain.words word member).ne_counter

namespace Assembly

/-- Whether a jump to `target` stands behind the instruction that records where
one of the given functions goes on, and goes to the home of that function. -/
def enters (functions : List Callee) (assembly : Assembly) (target : Label) :
    Nat → Bool
  | 0 => false
  | before + 1 =>
      functions.any fun callee =>
        callee.home = target &&
          assembly.code[before]? =
            some (.op .add (.resume callee.name) .counter (.word "1"))

/-- The addresses to which control can go from an address. -/
def successors
    (functions : List Callee) (assembly : Assembly) (address : Nat) :
    List Nat :=
  match assembly.code[address]? with
  | none => []
  | some .halt => []
  | some (.set target _) => if target = .counter then [] else [address + 1]
  | some (.jump target .always) =>
      if assembly.enters functions target address then
        [address + 1]
      else
        (assembly.labels.address? target).toList
  | some (.jump target (.compare ..)) =>
      (assembly.labels.address? target).toList ++ [address + 1]
  | some (.op ..) | some (.read ..) | some (.write ..) | some (.raw _)
  | some .noop => [address + 1]

/-- Control that starts at one address can come to another. -/
inductive Reaches
    (functions : List Callee) (assembly : Assembly) (start : Nat) :
    Nat → Prop
  | here : Reaches functions assembly start start
  | next {address target : Nat} :
      Reaches functions assembly start address →
        target ∈ assembly.successors functions address →
          Reaches functions assembly start target

/-- Control from a region of addresses between `low` and `high` stays in the
region or takes one of the exits. -/
def Closed
    (functions : List Callee) (assembly : Assembly) (low high : Nat)
    (exits region : Nat → Prop) : Prop :=
  ∀ address, region address →
    (low ≤ address ∧ address < high) ∧
      ∀ target ∈ assembly.successors functions address,
        region target ∨ exits target

/-- An address lies in a closed region. -/
def Stays
    (functions : List Callee) (assembly : Assembly) (low high : Nat)
    (exits : Nat → Prop) (address : Nat) : Prop :=
  ∃ region, Closed functions assembly low high exits region ∧ region address

/-- An address lies in a closed region, or is an exit itself. -/
def Confined
    (functions : List Callee) (assembly : Assembly) (low high : Nat)
    (exits : Nat → Prop) (address : Nat) : Prop :=
  Stays functions assembly low high exits address ∨ exits address

/-! ## Closed regions -/

section Regions

variable {functions : List Callee} {assembly : Assembly} {low high : Nat}
  {exits : Nat → Prop} {address : Nat}

theorem Stays.step
    (above : low ≤ address) (below : address < high)
    (next : ∀ target ∈ assembly.successors functions address,
      Confined functions assembly low high exits target) :
    Stays functions assembly low high exits address := by
  -- All closed regions together with the address are closed.
  refine
    ⟨fun other =>
      other = address ∨ Stays functions assembly low high exits other,
      ?_, Or.inl rfl⟩
  intro other inside
  rcases inside with rfl | ⟨region, closed, member⟩
  · refine ⟨⟨above, below⟩, fun target successor => ?_⟩
    rcases next target successor with stays | exit
    · exact Or.inl (Or.inr stays)
    · exact Or.inr exit
  · obtain ⟨range, onward⟩ := closed other member
    refine ⟨range, fun target successor => ?_⟩
    rcases onward target successor with stays | exit
    · exact Or.inl (Or.inr ⟨region, closed, stays⟩)
    · exact Or.inr exit

theorem Stays.bind
    {outer : Nat → Prop}
    (stays : Stays functions assembly low high exits address)
    (later : ∀ exit, exits exit →
      Confined functions assembly low high outer exit) :
    Stays functions assembly low high outer address := by
  obtain ⟨region, closed, member⟩ := stays
  refine
    ⟨fun other =>
      region other ∨ Stays functions assembly low high outer other,
      ?_, Or.inl member⟩
  intro other inside
  rcases inside with inside | ⟨behind, behindClosed, inside⟩
  · obtain ⟨range, onward⟩ := closed other inside
    refine ⟨range, fun target successor => ?_⟩
    rcases onward target successor with stays | exit
    · exact Or.inl (Or.inl stays)
    · rcases later target exit with stays | exit
      · exact Or.inl (Or.inr stays)
      · exact Or.inr exit
  · obtain ⟨range, onward⟩ := behindClosed other inside
    refine ⟨range, fun target successor => ?_⟩
    rcases onward target successor with stays | exit
    · exact Or.inl (Or.inr ⟨behind, behindClosed, stays⟩)
    · exact Or.inr exit

theorem Confined.bind
    {outer : Nat → Prop}
    (confined : Confined functions assembly low high exits address)
    (later : ∀ exit, exits exit →
      Confined functions assembly low high outer exit) :
    Confined functions assembly low high outer address := by
  rcases confined with stays | exit
  · exact Or.inl (stays.bind later)
  · exact later address exit

theorem Confined.weaken
    {outer : Nat → Prop}
    (confined : Confined functions assembly low high exits address)
    (weaker : ∀ exit, exits exit → outer exit) :
    Confined functions assembly low high outer address :=
  confined.bind fun exit taken => Or.inr (weaker exit taken)

theorem Confined.widen
    {bottom top : Nat}
    (confined : Confined functions assembly low high exits address)
    (below : bottom ≤ low) (above : high ≤ top) :
    Confined functions assembly bottom top exits address := by
  rcases confined with ⟨region, closed, member⟩ | exit
  · refine Or.inl ⟨region, ?_, member⟩
    intro other inside
    obtain ⟨range, onward⟩ := closed other inside
    exact ⟨⟨by omega, by omega⟩, onward⟩
  · exact Or.inr exit

/-- A loop: control may come back to where it started. -/
theorem Stays.loop
    (stays :
      Stays functions assembly low high
        (fun exit => exits exit ∨ exit = address) address) :
    Stays functions assembly low high exits address := by
  obtain ⟨region, closed, member⟩ := stays
  refine ⟨region, ?_, member⟩
  intro other inside
  obtain ⟨range, onward⟩ := closed other inside
  refine ⟨range, fun target successor => ?_⟩
  rcases onward target successor with stays | exit | rfl
  · exact Or.inl stays
  · exact Or.inr exit
  · exact Or.inl member

/-- Control goes from each address of a range to the next one. -/
def RunsOn
    (functions : List Callee) (assembly : Assembly) (start behind : Nat) :
    Prop :=
  ∀ address, start ≤ address → address < behind →
    assembly.successors functions address = [address + 1]

theorem Confined.of_runsOn
    {start behind : Nat}
    (runsOn : RunsOn functions assembly start behind)
    (ordered : start ≤ behind) (above : low ≤ start) (below : behind ≤ high)
    (confined : Confined functions assembly low high exits behind) :
    Confined functions assembly low high exits start := by
  induction ordered with
  | refl =>
      exact confined
  | @step behind ordered inductionHypothesis =>
      apply inductionHypothesis
      · exact fun address begun ended => runsOn address begun (by omega)
      · omega
      · refine Or.inl (Stays.step (Nat.le_trans above ordered) below ?_)
        rw [runsOn behind ordered (Nat.lt_succ_self behind)]
        simpa using confined

theorem Stays.of_runsOn
    {start behind : Nat}
    (runsOn : RunsOn functions assembly start behind)
    (ordered : start ≤ behind) (above : low ≤ start)
    (stays : Stays functions assembly low high exits behind) :
    Stays functions assembly low high exits start := by
  obtain ⟨region, closed, member⟩ := stays
  have below := (closed behind member).1.2
  by_cases same : start = behind
  · subst same
    exact ⟨region, closed, member⟩
  · refine Stays.step above (by omega) ?_
    rw [runsOn start (Nat.le_refl start) (by omega)]
    have rest :=
      Confined.of_runsOn
        (fun address begun ended => runsOn address (by omega) ended)
        (show start + 1 ≤ behind by omega) (by omega) (by omega)
        (Or.inl ⟨region, closed, member⟩)
    simpa using rest

theorem Confined.of_reaches
    {start : Nat}
    (confined : Confined functions assembly low high (fun _ => False) start)
    (reached : Reaches functions assembly start address) :
    low ≤ address ∧ address < high := by
  rcases confined with ⟨region, closed, member⟩ | impossible
  · have inside : region address := by
      induction reached with
      | here =>
          exact member
      | next _ successor inductionHypothesis =>
          rcases (closed _ inductionHypothesis).2 _ successor with stays | exit
          · exact stays
          · exact exit.elim
    exact (closed address inside).1
  · exact impossible.elim

end Regions

/-! ## Successors of instructions -/

section Successors

variable {functions callees : List Callee} {assembly : Assembly}
  {address : Nat}

theorem successors_of_computes
    {instruction : Instruction}
    (here : assembly.code[address]? = some instruction)
    (computes : instruction.Computes (· ≠ .counter)) :
    assembly.successors functions address = [address + 1] := by
  unfold successors
  rw [here]
  cases instruction with
  | set target value =>
      exact if_neg computes.1
  | op | read | write =>
      rfl
  | jump | raw | halt | noop =>
      exact computes.elim

theorem successors_of_enter
    {callee : Callee} (member : callee ∈ functions)
    (record :
      assembly.code[address]? =
        some (.op .add (.resume callee.name) .counter (.word "1")))
    (jump : assembly.code[address + 1]? = some (.jump callee.home .always)) :
    assembly.successors functions (address + 1) = [address + 2] := by
  have entered :
      assembly.enters functions callee.home (address + 1) = true := by
    simp only [enters, List.any_eq_true]
    exact ⟨callee, member, by simp [record]⟩
  unfold successors
  rw [jump]
  exact if_pos entered

/-- A label that is not the home of a function. -/
def Inner (functions : List Callee) (label : Label) : Prop :=
  ∀ callee ∈ functions, callee.home ≠ label

theorem successors_of_jump
    {target : Label} (inner : Inner functions target)
    (here : assembly.code[address]? = some (.jump target .always)) :
    assembly.successors functions address =
      (assembly.labels.address? target).toList := by
  have plain : ¬ assembly.enters functions target address = true := by
    cases address with
    | zero =>
        simp [enters]
    | succ before =>
        simp only [enters, List.any_eq_true, Bool.and_eq_true,
          decide_eq_true_eq, not_exists, not_and]
        intro callee member home
        exact absurd home (inner callee member)
  unfold successors
  rw [here]
  exact if_neg plain

theorem successors_of_branch
    {target : Label} {operator : Operator} {lhs rhs : Operand}
    (here :
      assembly.code[address]? =
        some (.jump target (.compare operator lhs rhs))) :
    assembly.successors functions address =
      (assembly.labels.address? target).toList ++ [address + 1] := by
  unfold successors
  rw [here]

theorem successors_of_size :
    assembly.successors functions assembly.code.size = [] := by
  simp [successors]

theorem successors_of_leave
    {value : Operand}
    (here : assembly.code[address]? = some (.set .counter value)) :
    assembly.successors functions address = [] := by
  unfold successors
  rw [here]
  exact if_pos rfl

theorem RunsOn.cons
    {start behind : Nat}
    (first : assembly.successors functions start = [start + 1])
    (rest : RunsOn functions assembly (start + 1) behind) :
    RunsOn functions assembly start behind := by
  intro address begun ended
  by_cases same : address = start
  · subst same
    exact first
  · exact rest address (by omega) ended

theorem runsOn_of_straight
    {code : List Instruction} {start : Nat}
    (straight : Straight (· ≠ .counter) callees code)
    (known : ∀ callee ∈ callees, callee ∈ functions)
    (carries : assembly.Carries start (emitAll code)) :
    RunsOn functions assembly start (start + code.length) := by
  induction straight generalizing start with
  | nil =>
      intro address begun ended
      simp only [List.length_nil] at ended
      omega
  | @cons instruction rest computes _ inductionHypothesis =>
      have later := inductionHypothesis carries.2
      rw [List.length_cons, Nat.add_comm rest.length, ← Nat.add_assoc]
      exact RunsOn.cons (successors_of_computes carries.1 computes) later
  | @enter callee rest member _ inductionHypothesis =>
      obtain ⟨record, jump, carriesRest⟩ := carries
      have later := inductionHypothesis carriesRest
      have second :=
        successors_of_enter (known callee member) record jump
      have first : assembly.successors functions start = [start + 1] := by
        unfold successors
        rw [record]
      have length :
          start + (callee.enter ++ rest).length = start + 2 + rest.length := by
        simp only [Callee.enter, List.length_append, List.length_cons,
          List.length_nil]
        omega
      rw [length]
      exact RunsOn.cons first (RunsOn.cons second later)

/-- The code of a condition goes to its target or on behind itself. -/
theorem Stays.of_condition
    {low high start place next : Nat} {exits : Nat → Prop}
    {condition : Expr} {target : Label} {temps : Nat}
    (allows : Expr.Allows (· ≠ .counter) callees)
    (plain : condition.Plain callees)
    (known : ∀ callee ∈ callees, callee ∈ functions)
    (carries :
      assembly.Carries start
        (emitAll (condition.lowerCondition target true temps).1))
    (placed : assembly.labels.address? target = some place)
    (behind :
      next = start + (condition.lowerCondition target true temps).1.length)
    (above : low ≤ start) (below : next ≤ high)
    (taken : Confined functions assembly low high exits place)
    (passed : Confined functions assembly low high exits next) :
    Stays functions assembly low high exits start := by
  obtain ⟨before, operator, lhs, rhs, shape, straight, _⟩ :=
    Expr.straight_lowerCondition allows plain.linked plain.ne_counter
      (by decide) target temps
  rw [shape] at carries behind
  rw [carries_emitAll_append] at carries
  obtain ⟨beforeCarried, jumpCarried, _⟩ := carries
  rw [List.length_append, List.length_singleton, ← Nat.add_assoc] at behind
  subst behind
  have runsOn := runsOn_of_straight straight known beforeCarried
  refine Stays.of_runsOn runsOn (by omega) above ?_
  refine Stays.step (by omega) (by omega) ?_
  rw [successors_of_branch jumpCarried, placed]
  simp only [Option.toList_some, List.singleton_append, List.mem_cons,
    List.not_mem_nil, or_false, forall_eq_or_imp, forall_eq]
  exact ⟨taken, passed⟩

end Successors

end Assembly

/-! ## Statements -/

namespace Stmt

open Assembly
open Program (plainParts)

/-- An address to which the statements that leave or repeat a loop can go. -/
def LoopExit
    (assembly : Assembly) (around : Option LoopLabels) (address : Nat) :
    Prop :=
  ∃ labels ∈ around,
    assembly.labels.address? labels.home = some address ∨
      assembly.labels.address? labels.exit = some address

/-- Where control can go behind the code of a statement, which ends before
`behind`. -/
def Exits
    (assembly : Assembly) (around : Option LoopLabels) (returns : Bool)
    (behind address : Nat) : Prop :=
  returns = false ∧ address = behind ∨ LoopExit assembly around address

/-- Control that enters code at its start stays in it or takes one of its exits,
wherever the code stands. -/
def CodeEnclosed
    (functions : List Callee) (assembly : Assembly)
    (around : Option LoopLabels) (returns : Bool) (code : List Entry) : Prop :=
  ∀ start,
    (∀ label ∈ placed code, Inner functions label) →
      (∀ labels ∈ around,
        Inner functions labels.home ∧ Inner functions labels.exit) →
        assembly.Carries start code →
          Confined functions assembly start (start + width code)
            (Exits assembly around returns (start + width code)) start

/-- Control stays in the code of a statement or takes one of its exits. -/
def Enclosed
    (functions : List Callee) (assembly : Assembly)
    (around : Option LoopLabels) (stmt : Stmt) : Prop :=
  ∀ supply,
    CodeEnclosed functions assembly around stmt.returns (stmt.lower supply).1

def EnclosedAll
    (functions : List Callee) (assembly : Assembly)
    (around : Option LoopLabels) (body : List Stmt) : Prop :=
  ∀ supply,
    CodeEnclosed functions assembly around (anyReturns body)
      (lowerAll supply body).1

section Forms

variable {functions callees : List Callee} {assembly : Assembly}
  {around : Option LoopLabels}

theorem Exits.weaken
    {returns weaker : Bool} {behind address : Nat}
    (exit : Exits assembly around returns behind address)
    (goesOn : returns = false → weaker = false) :
    Exits assembly around weaker behind address :=
  exit.imp_left fun ⟨ends, here⟩ => ⟨goesOn ends, here⟩

theorem confined_of_straight
    {code : List Instruction} {start : Nat}
    (straight : Straight (· ≠ .counter) callees code)
    (known : ∀ callee ∈ callees, callee ∈ functions)
    (carries : assembly.Carries start (emitAll code)) :
    Confined functions assembly start (start + code.length)
      (Exits assembly around false (start + code.length)) start :=
  Confined.of_runsOn (runsOn_of_straight straight known carries) (by omega)
    (Nat.le_refl _) (Nat.le_refl _) (Or.inr (Or.inl ⟨rfl, rfl⟩))

theorem enclosed_assign
    {target : String} {value : Expr}
    (allows : Expr.Allows (· ≠ .counter) callees)
    (known : ∀ callee ∈ callees, callee ∈ functions)
    (targetPlain : PlainWord target) (valuePlain : value.Plain callees) :
    (Stmt.assign target value).Enclosed functions assembly around := by
  intro supply start _ _ carries
  have straight :=
    Expr.straight_into allows valuePlain.linked valuePlain.ne_counter
      supply.temps targetPlain.ne_counter
  rw [lower_assign] at carries ⊢
  rw [width_emitAll]
  exact confined_of_straight straight known carries

theorem enclosed_store
    {cell : String} {index value : Expr}
    (allows : Expr.Allows (· ≠ .counter) callees)
    (known : ∀ callee ∈ callees, callee ∈ functions)
    (cellPlain : PlainWord cell) (indexPlain : index.Plain callees)
    (valuePlain : value.Plain callees) :
    (Stmt.store cell index value).Enclosed functions assembly around := by
  intro supply start _ _ carries
  have stored :=
    Expr.straight_lower_anywhere allows valuePlain.linked
      valuePlain.ne_counter supply.temps
  have place :=
    Expr.straight_lower_anywhere allows indexPlain.linked
      indexPlain.ne_counter (value.lower .anywhere supply.temps).temps
  have computes :
      (Instruction.write (value.lower .anywhere supply.temps).operand
        (.word cell)
        (index.lower .anywhere
          (value.lower .anywhere supply.temps).temps).operand).Computes
        (· ≠ .counter) :=
    ⟨Expr.good_operand allows valuePlain.ne_counter supply.temps,
      cellPlain.ne_counter,
      Expr.good_operand allows indexPlain.ne_counter _⟩
  rw [lower_store] at carries ⊢
  rw [width_emitAll]
  exact
    confined_of_straight
      (stored.append (place.append (.cons computes .nil))) known carries

theorem enclosed_ifThen
    {condition : Expr} {thenBranch : Stmt}
    (allows : Expr.Allows (· ≠ .counter) callees)
    (known : ∀ callee ∈ callees, callee ∈ functions)
    (plain : condition.Plain callees)
    (enclosed : thenBranch.Enclosed functions assembly around) :
    (Stmt.ifThen condition thenBranch).Enclosed functions assembly
      around := by
  intro supply start inner loops carries
  obtain
    ⟨branch, behind, branchHere, behindHere, total, testCarried,
      branchCarried, exitPlaced⟩ := carries_ifThen carries
  simp only [lower_ifThen, List.singleton_append, placed_create,
    placed_append, placed_emitAll, List.nil_append,
    List.forall_mem_append] at inner
  rw [total]
  have first := enclosed _ branch inner.1 loops branchCarried
  rw [← behindHere] at first
  have passed :
      Confined functions assembly start behind
        (Exits assembly around false behind) branch :=
    (first.widen (by omega) (Nat.le_refl _)).weaken
      fun _ exit => exit.weaken fun _ => rfl
  exact
    Or.inl
      (Stays.of_condition allows plain known testCarried exitPlaced branchHere
        (Nat.le_refl _) (by omega) (Or.inr (Or.inl ⟨rfl, rfl⟩)) passed)

theorem enclosed_ifElse
    {condition : Expr} {thenBranch elseBranch : Stmt}
    (allows : Expr.Allows (· ≠ .counter) callees)
    (known : ∀ callee ∈ callees, callee ∈ functions)
    (plain : condition.Plain callees)
    (thenEnclosed : thenBranch.Enclosed functions assembly around)
    (elseEnclosed : elseBranch.Enclosed functions assembly around) :
    (Stmt.ifElse condition thenBranch elseBranch).Enclosed functions assembly
      around := by
  intro supply start inner loops carries
  obtain
    ⟨branch, between, behind, branchHere, betweenHere, behindHere, total,
      testCarried, firstCarried, jumpHere, otherwisePlaced, secondCarried,
      exitPlaced⟩ := carries_ifElse carries
  simp only [lower_ifElse, List.cons_append, List.nil_append,
    placed_create, placed_append, placed_emitAll, placed_emit,
    placed_place, List.forall_mem_append, List.forall_mem_cons] at inner
  obtain ⟨firstInner, _, secondInner, exitInner, _⟩ := inner
  rw [total]
  have first := thenEnclosed _ branch firstInner loops firstCarried
  have second :=
    elseEnclosed _ (between + 1) secondInner loops secondCarried
  rw [← betweenHere] at first
  rw [← behindHere] at second
  have taken :
      Confined functions assembly start behind
        (Exits assembly around
          (thenBranch.returns && elseBranch.returns) behind)
        (between + 1) :=
    (second.widen (by omega) (Nat.le_refl _)).weaken
      fun _ exit => exit.weaken fun goesOn => by rw [goesOn, Bool.and_false]
  have passed :
      Confined functions assembly start behind
        (Exits assembly around
          (thenBranch.returns && elseBranch.returns) behind)
        branch := by
    refine (first.widen (by omega) (by omega)).bind ?_
    rintro address (⟨goesOn, rfl⟩ | jumped)
    · -- Behind the first branch stands the jump over the second one.
      refine Or.inl (Stays.step (by omega) (by omega) ?_)
      rw [successors_of_jump exitInner jumpHere, exitPlaced]
      simp only [Option.toList_some, List.forall_mem_singleton]
      exact Or.inr (Or.inl ⟨by rw [goesOn, Bool.false_and], rfl⟩)
    · exact Or.inr (Or.inr jumped)
  exact
    Or.inl
      (Stays.of_condition allows plain known testCarried otherwisePlaced
        branchHere (Nat.le_refl _) (by omega) taken passed)

theorem enclosed_loop
    {home exit : Label} {condition : Expr} {body : Stmt}
    (allows : Expr.Allows (· ≠ .counter) callees)
    (known : ∀ callee ∈ callees, callee ∈ functions)
    (plain : condition.Plain callees)
    (enclosed : body.Enclosed functions assembly (some ⟨home, exit⟩)) :
    (Stmt.loop home exit condition body).Enclosed functions assembly
      around := by
  intro supply start inner _ carries
  obtain
    ⟨inside, back, insideHere, backHere, total, homePlaced, testCarried,
      bodyCarried, jumpHere, exitPlaced⟩ := carries_loop carries
  simp only [lower_loop, List.singleton_append, placed_append,
    placed_emitAll, placed_emit, placed_place, List.nil_append,
    List.forall_mem_append, List.forall_mem_cons] at inner
  obtain ⟨homeInner, bodyInner, exitInner, _⟩ := inner
  rw [total]
  have own :
      ∀ labels ∈ some (LoopLabels.mk home exit),
        Inner functions labels.home ∧ Inner functions labels.exit := by
    simpa using And.intro homeInner exitInner
  have repeated := enclosed _ inside bodyInner own bodyCarried
  rw [← backHere] at repeated
  have passed :
      Confined functions assembly start (back + 1)
        (fun address =>
          Exits assembly around false (back + 1) address ∨
            address = start)
        inside := by
    refine (repeated.widen (by omega) (by omega)).bind ?_
    rintro address (⟨_, rfl⟩ | ⟨labels, same, jumped⟩)
    · -- The end of the body goes back to the test.
      refine Or.inl (Stays.step (by omega) (Nat.lt_succ_self _) ?_)
      rw [successors_of_jump homeInner jumpHere, homePlaced]
      simp only [Option.toList_some, List.forall_mem_singleton]
      exact Or.inr (Or.inr rfl)
    · cases same
      rcases jumped with repeats | leaves
      · rw [homePlaced] at repeats
        exact Or.inr (Or.inr (Option.some.inj repeats).symm)
      · rw [exitPlaced] at leaves
        exact Or.inr (Or.inl (Or.inl ⟨rfl, (Option.some.inj leaves).symm⟩))
  have test :=
    Stays.of_condition allows plain known testCarried exitPlaced insideHere
      (Nat.le_refl start) (by omega) (Or.inr (Or.inl (Or.inl ⟨rfl, rfl⟩)))
      passed
  exact Or.inl test.loop

theorem enclosed_ret
    {name : String} {value : Option Expr}
    (allows : Expr.Allows (· ≠ .counter) callees)
    (known : ∀ callee ∈ callees, callee ∈ functions)
    (plain : ∀ result ∈ value, result.Plain callees) :
    (Stmt.ret name value).Enclosed functions assembly around := by
  intro supply start _ _ carries
  obtain ⟨last, lastHere, total, resultCarried, leaveHere⟩ :=
    carries_ret carries
  rw [total]
  have straight :
      Straight (· ≠ .counter) callees
        (lowerResult name supply.temps value).1 := by
    cases value with
    | none =>
        exact .nil
    | some value =>
        exact
          Expr.straight_into allows (plain value rfl).linked
            (plain value rfl).ne_counter _ nofun
  have runsOn := runsOn_of_straight straight known resultCarried
  rw [← lastHere] at runsOn
  refine Or.inl (Stays.of_runsOn runsOn (by omega) (Nat.le_refl _) ?_)
  refine Stays.step (by omega) (Nat.lt_succ_self _) ?_
  rw [successors_of_leave leaveHere]
  simp

theorem enclosed_jump
    {target : Label} {labels : LoopLabels}
    (own : target = labels.home ∨ target = labels.exit) :
    (Stmt.jump target).Enclosed functions assembly (some labels) := by
  intro supply start _ loops carries
  have targetInner : Inner functions target := by
    rcases own with rfl | rfl
    · exact (loops labels rfl).1
    · exact (loops labels rfl).2
  rw [lower_jump] at carries ⊢
  refine Or.inl (Stays.step (Nat.le_refl _) (by simp) ?_)
  rw [successors_of_jump targetInner carries.1]
  intro address member
  have placed : assembly.labels.address? target = some address := by
    simpa using member
  refine Or.inr (Or.inr ⟨labels, rfl, ?_⟩)
  rcases own with rfl | rfl
  · exact Or.inl placed
  · exact Or.inr placed

theorem enclosed_block
    {body : List Stmt}
    (enclosed : EnclosedAll functions assembly around body) :
    (Stmt.block body).Enclosed functions assembly around := by
  intro supply
  rw [lower_block]
  exact enclosed supply

theorem enclosed_empty :
    Stmt.empty.Enclosed functions assembly around :=
  fun _ _ _ _ _ => Or.inr (Or.inl ⟨rfl, rfl⟩)

theorem enclosedAll_nil :
    EnclosedAll functions assembly around [] :=
  fun _ _ _ _ _ => Or.inr (Or.inl ⟨rfl, rfl⟩)

theorem enclosedAll_cons
    {first : Stmt} {others : List Stmt}
    (firstEnclosed : first.Enclosed functions assembly around)
    (othersEnclosed : EnclosedAll functions assembly around others) :
    EnclosedAll functions assembly around (first :: others) := by
  intro supply start inner loops carries
  obtain ⟨middle, middleHere, total, firstCarried, othersCarried⟩ :=
    carries_cons carries
  simp only [lowerAll_cons, placed_append, List.forall_mem_append] at inner
  rw [total]
  have head := firstEnclosed supply start inner.1 loops firstCarried
  have tail := othersEnclosed _ middle inner.2 loops othersCarried
  rw [← middleHere] at head
  refine (head.widen (Nat.le_refl _) (by omega)).bind ?_
  rintro address (⟨goesOn, rfl⟩ | jumped)
  · refine (tail.widen (by omega) (Nat.le_refl _)).weaken ?_
    intro _ exit
    refine exit.weaken fun othersGoOn => ?_
    rw [anyReturns, goesOn, othersGoOn, Bool.or_false]
  · exact Or.inr (Or.inr jumped)

end Forms

variable {functions callees : List Callee} {function : Option String}
  {assembly : Assembly}

mutual

theorem enclosed
    (allows : Expr.Allows (· ≠ .counter) callees)
    (known : ∀ callee ∈ callees, callee ∈ functions) :
    ∀ (stmt : Stmt) (around : Option LoopLabels) (created : Nat),
      stmt.Formed (plainParts callees function) around created →
        stmt.Enclosed functions assembly around
  | .assign _ _, _, _, ⟨targetPlain, valuePlain⟩ =>
      enclosed_assign allows known targetPlain valuePlain
  | .store _ _ _, _, _, ⟨cellPlain, indexPlain, valuePlain⟩ =>
      enclosed_store allows known cellPlain indexPlain valuePlain
  | .ifThen _ thenBranch, around, created, ⟨plain, formed⟩ =>
      enclosed_ifThen allows known plain
        (enclosed allows known thenBranch around created formed)
  | .ifElse _ thenBranch elseBranch, around, created,
      ⟨plain, thenFormed, elseFormed⟩ =>
      enclosed_ifElse allows known plain
        (enclosed allows known thenBranch around created thenFormed)
        (enclosed allows known elseBranch around _ elseFormed)
  | .loop _ _ _ body, _, created, ⟨rfl, rfl, plain, formed⟩ =>
      enclosed_loop allows known plain
        (enclosed allows known body _ (created + 2) formed)
  | .ret _ _, _, _, ⟨_, plain⟩ =>
      enclosed_ret allows known plain
  | .jump _, _, _, ⟨_, rfl, own⟩ =>
      enclosed_jump own
  | .raw _, _, _, formed =>
      formed.elim
  | .block body, around, created, formed =>
      enclosed_block (enclosedAll allows known body around created formed)
  | .empty, _, _, _ =>
      enclosed_empty

theorem enclosedAll
    (allows : Expr.Allows (· ≠ .counter) callees)
    (known : ∀ callee ∈ callees, callee ∈ functions) :
    ∀ (body : List Stmt) (around : Option LoopLabels) (created : Nat),
      FormedAll (plainParts callees function) around created body →
        EnclosedAll functions assembly around body
  | [], _, _, _ =>
      enclosedAll_nil
  | first :: others, around, created, ⟨firstFormed, othersFormed⟩ =>
      enclosedAll_cons
        (enclosed allows known first around created firstFormed)
        (enclosedAll allows known others around _ othersFormed)

end

end Stmt

/-! ## Programs -/

namespace Program

open Assembly

variable {program : Program} {emitted : Assembly}

theorem allows_of_plain
    (plain : program.Plain) {functions : List Function}
    (known : ∀ function ∈ functions, function ∈ program.functions) :
    Expr.Allows (· ≠ .counter) (functions.map Function.callee) := by
  refine ⟨fun _ => nofun, fun _ _ => nofun, ?_⟩
  intro callee member param paramMember
  obtain ⟨function, functionMember, rfl⟩ := List.mem_map.mp member
  obtain ⟨_, _, formed⟩ :=
    Function.formed_of_mem plain.functions (known function functionMember)
  have plainParam := formed.names param (List.mem_cons_of_mem _ paramMember)
  exact plainParam.ne_counter

theorem confined_block
    (formed : program.WellFormed) (plain : program.Plain)
    (assembled :
      Assembly.ofEntries program.labels program.lower = .ok emitted)
    {block : Block} (member : block ∈ program.blocks) :
    Confined (program.functions.map Function.callee) emitted.guarded
      block.address block.limit (fun _ => False) block.address := by
  obtain ⟨created, blockPlain⟩ :=
    Function.formed_of_mem_blocks plain.functions member
  have known :
      ∀ function ∈ block.earlier, function ∈ program.functions := by
    intro function above
    simpa using Function.mem_of_mem_earlier member above
  have nodup :
      (placed
        (Function.lowerAll program.mainCode.2 program.functions).1).Nodup :=
    (List.nodup_append.mp (nodup_placed_parts formed)).2.1
  have inner :
      ∀ label ∈
          placed (Stmt.lowerAll block.supply block.function.body).1,
        Inner (program.functions.map Function.callee) label := by
    intro label inside callee calleeMember
    obtain ⟨function, functionMember, rfl⟩ := List.mem_map.mp calleeMember
    exact Function.home_ne_of_nodup nodup member inside functionMember
  have body :=
    Stmt.enclosedAll (allows_of_plain plain known)
      (fun callee calleeMember => by
        obtain ⟨function, above, rfl⟩ := List.mem_map.mp calleeMember
        exact List.mem_map_of_mem (known function above))
      block.function.body none created blockPlain.body block.supply
      block.address inner (by simp)
      (carries_of_mem_blocks assembled member).2
  refine body.weaken ?_
  -- The body returns and there is no loop around it.
  rintro address (⟨goesOn, _⟩ | ⟨labels, none, _⟩)
  · rw [Stmt.anyReturns_eq_any, blockPlain.returns] at goesOn
    cases goesOn
  · cases none

theorem confined_main
    (formed : program.WellFormed) (plain : program.Plain)
    (assembled :
      Assembly.ofEntries program.labels program.lower = .ok emitted) :
    Confined (program.functions.map Function.callee) emitted.guarded 0
      program.mainWidth (· = program.mainWidth) 0 := by
  have inner :
      ∀ label ∈ placed program.mainCode.1,
        Inner (program.functions.map Function.callee) label := by
    intro label inside callee calleeMember same
    obtain ⟨function, functionMember, rfl⟩ := List.mem_map.mp calleeMember
    have apart := (List.nodup_append.mp (nodup_placed_parts formed)).2.2
    exact
      apart label inside function.home
        (Function.home_mem_placed functionMember _) same.symm
  have body :=
    Stmt.enclosedAll
      (allows_of_plain plain fun function functionMember => functionMember)
      (fun callee calleeMember => calleeMember) program.main none _
      plain.main ⟨program.labels.created, 0⟩ 0 inner (by simp)
      (carries_parts assembled).1
  rw [Nat.zero_add] at body
  refine body.weaken ?_
  rintro address (⟨_, behind⟩ | ⟨labels, none, _⟩)
  · exact behind
  · cases none

theorem lt_of_reaches_main
    (formed : program.WellFormed) (plain : program.Plain)
    (assembled :
      Assembly.ofEntries program.labels program.lower = .ok emitted)
    {address top : Nat} (below : program.mainWidth ≤ top)
    (ends :
      Confined (program.functions.map Function.callee) emitted.guarded 0 top
        (fun _ => False) program.mainWidth)
    (reached :
      Reaches (program.functions.map Function.callee) emitted.guarded 0
        address) :
    address < top := by
  have main := confined_main formed plain assembled
  have whole :
      Confined (program.functions.map Function.callee) emitted.guarded 0 top
        (fun _ => False) 0 := by
    refine (main.widen (Nat.le_refl 0) below).bind ?_
    rintro _ rfl
    exact ends
  exact (whole.of_reaches reached).2

theorem reached_before_functions
    (formed : program.WellFormed) (plain : program.Plain)
    (assembled :
      Assembly.ofEntries program.labels program.lower = .ok emitted)
    (halt : emitted.guarded.code[program.mainWidth]? = some .halt)
    {address : Nat}
    (reached :
      Reaches (program.functions.map Function.callee) emitted.guarded 0
        address) :
    address < program.mainWidth ∨ address = program.mainWidth := by
  have bound : address < program.mainWidth + 1 := by
    refine
      lt_of_reaches_main formed plain assembled (Nat.le_succ _) ?_ reached
    refine Or.inl (Stays.step (Nat.zero_le _) (Nat.lt_succ_self _) ?_)
    rw [successors, halt]
    simp
  omega

theorem reached_before_guard
    (formed : program.WellFormed) (plain : program.Plain)
    (assembled :
      Assembly.ofEntries program.labels program.lower = .ok emitted)
    (noop : emitted.guarded.code[program.mainWidth]? = some .noop)
    (size : emitted.guarded.code.size = program.mainWidth + 1)
    {address : Nat}
    (reached :
      Reaches (program.functions.map Function.callee) emitted.guarded 0
        address) :
    address < program.mainWidth ∨ address = program.mainWidth ∨
      address = emitted.guarded.code.size := by
  have bound : address < program.mainWidth + 2 := by
    refine lt_of_reaches_main formed plain assembled (by omega) ?_ reached
    refine Or.inl (Stays.step (Nat.zero_le _) (by omega) ?_)
    rw [successors, noop]
    simp only [List.forall_mem_singleton]
    refine Or.inl (Stays.step (Nat.zero_le _) (by omega) ?_)
    rw [← size, successors_of_size]
    simp
  omega

theorem reached_before_end
    (formed : program.WellFormed) (plain : program.Plain)
    (assembled :
      Assembly.ofEntries program.labels program.lower = .ok emitted)
    (size : emitted.guarded.code.size = program.mainWidth) {address : Nat}
    (reached :
      Reaches (program.functions.map Function.callee) emitted.guarded 0
        address) :
    address < program.mainWidth ∨ address = emitted.guarded.code.size := by
  have bound : address < program.mainWidth + 1 := by
    refine
      lt_of_reaches_main formed plain assembled (Nat.le_succ _) ?_ reached
    refine Or.inl (Stays.step (Nat.zero_le _) (Nat.lt_succ_self _) ?_)
    rw [← size, successors_of_size]
    simp
  omega

end Program

/-- Control never runs off the end of a function, nor from the main part into a
function: from the home of a function it stays in the block of that function,
and from the first instruction it stays in the main part or comes to the
instruction behind it that stops the machine.  Without functions, it comes to the
guard or to the end of the code. -/
theorem control_stays_in_block
    {source : String} {program : Program}
    (read : Program.parse source = .ok program)
    (unraw : program.hasRaw = false)
    (uncounted : "@counter" ∉ program.words) :
    ∃ assembly,
      program.assemble = .ok assembly ∧
        program.blocks.map Block.function = program.functions ∧
        (∀ block ∈ program.blocks,
          assembly.labels.address? block.function.home =
              some block.address ∧
            assembly.Carries block.address block.entries ∧
            ∀ address,
              assembly.Reaches (program.functions.map Function.callee)
                  block.address address →
                block.address ≤ address ∧ address < block.limit) ∧
        assembly.Carries 0 program.mainCode.1 ∧
        ∀ address,
          assembly.Reaches (program.functions.map Function.callee) 0 address →
            address < program.mainWidth ∨
              program.functions ≠ [] ∧ address = program.mainWidth ∧
                assembly.code[address]? = some .halt ∨
              program.functions = [] ∧
                (address = program.mainWidth ∧
                    assembly.code[address]? = some .noop ∨
                  address = assembly.code.size) := by
  have formed := Program.wellFormed_of_parse read
  have plain := Program.plain_of_parse read unraw uncounted
  obtain ⟨emitted, assembled⟩ := Program.exists_ofEntries formed
  refine
    ⟨emitted.guarded, Program.assemble_eq assembled,
      Function.map_function_blocks _ _ _ _, ?_,
      (Program.carries_parts assembled).1, ?_⟩
  · intro block member
    have carried := Program.carries_of_mem_blocks assembled member
    refine ⟨carried.1, carried, ?_⟩
    intro address reached
    exact
      (Program.confined_block formed plain assembled member).of_reaches reached
  · intro address reached
    rcases Program.behind_main assembled with
      ⟨functions, halt⟩ | ⟨none, noop, size⟩ | ⟨none, size⟩
    · rcases
        Program.reached_before_functions formed plain assembled halt
          reached with inside | last
      · exact Or.inl inside
      · exact Or.inr (Or.inl ⟨functions, last, last ▸ halt⟩)
    · rcases
        Program.reached_before_guard formed plain assembled noop size
          reached with inside | last | behind
      · exact Or.inl inside
      · exact Or.inr (Or.inr ⟨none, Or.inl ⟨last, last ▸ noop⟩⟩)
      · exact Or.inr (Or.inr ⟨none, Or.inr behind⟩)
    · rcases
        Program.reached_before_end formed plain assembled size
          reached with inside | behind
      · exact Or.inl inside
      · exact Or.inr (Or.inr ⟨none, Or.inr behind⟩)

/-- A function whose body has a return behind a statement that leaves the loop
around both. -/
theorem control_stays_in_block_of_loop :
    ∃ program assembly,
      Program.parse
          "def f(n) \x7b while (n) \x7b break; return n; \x7d \x7d x = f(3);" =
        .ok program ∧
        program.assemble = .ok assembly ∧
        ∀ block ∈ program.blocks, ∀ address,
          assembly.Reaches (program.functions.map Function.callee)
              block.address address →
            block.address ≤ address ∧ address < block.limit := by
  obtain ⟨program, read, accepted⟩ :=
    Program.exists_of_accepted
      (show ((Program.parse
          "def f(n) \x7b while (n) \x7b break; return n; \x7d \x7d x = f(3);"
        ).toOption.any fun program =>
          !program.hasRaw && !decide ("@counter" ∈ program.words)) = true by
        decide +kernel)
  simp only [Bool.and_eq_true, Bool.not_eq_true', decide_eq_false_iff_not] at accepted
  obtain ⟨assembly, assembled, _, inside, _⟩ :=
    control_stays_in_block read accepted.1 accepted.2
  exact ⟨program, assembly, read, assembled, fun block member =>
    (inside block member).2.2⟩

end FlatCode
