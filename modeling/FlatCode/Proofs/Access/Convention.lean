import FlatCode.Proofs.Access.Basic
import FlatCode.Proofs.Flow
import FlatCode.Proofs.Tree.Call

/-!
# The calling convention

A function has two variables of its own: the address at which its caller goes on and
its result.  Code uses them in a fixed way.

* The address is written by the instruction before the jump to the function and by
  no other, every jump to the function has that instruction before it, and the
  address is read where the function is left.
* The result is written in the block of the function, and it is read by an
  instruction right behind a jump to the function.

`Obeys` says this of any code, with `inside` for the positions in the block of the
function.  It passes from parts to the whole, because the instructions of a call
stand together in the code of one expression.
-/

namespace FlatCode

open Entry

namespace Callee

def record (callee : Callee) : Instruction :=
  .op .add (.resume callee.name) .counter (.word "1")

end Callee

/-- Code uses the variables of a function as calls do, where `inside` are the
positions in the block of the function. -/
structure Obeys
    (inside : Nat → Prop) (callee : Callee) (code : List Instruction) :
    Prop where
  resumeWritten : ∀ (index : Nat) instruction,
    code[index]? = some instruction →
      instruction.target? = some (.resume callee.name) →
        instruction = callee.record ∧
          code[index + 1]? = some (.jump callee.home .always)
  entered : ∀ (index : Nat) condition,
    code[index]? = some (.jump callee.home condition) →
      condition = .always ∧
        ∃ before, index = before + 1 ∧ code[before]? = some callee.record
  resumeRead : ∀ (index : Nat) instruction,
    code[index]? = some instruction →
      .resume callee.name ∈ instruction.sources →
        instruction = .set .counter (.resume callee.name) ∧ inside index
  resultWritten : ∀ (index : Nat) instruction,
    code[index]? = some instruction →
      instruction.target? = some (.result callee.name) → inside index
  resultRead : ∀ (index : Nat) instruction,
    code[index]? = some instruction →
      .result callee.name ∈ instruction.sources →
        (∃ target, instruction = .set target (.result callee.name)) ∧
          ∃ before, index = before + 1 ∧
            code[before]? = some (.jump callee.home .always)

/-- An operand into which code of a function may store, where `own` says whether it
is the function whose variables are looked at. -/
structure Operand.Fit (own : Prop) (callee : Callee) (target : Operand) :
    Prop where
  resume : target ≠ .resume callee.name
  result : target = .result callee.name → own

def Operand.IsLocal : Operand → Prop
  | .word _ | .temp _ => True
  | .resume _ | .result _ => False

@[simp]
theorem Operand.isLocal_word (text : String) :
    (Operand.word text).IsLocal := trivial

@[simp]
theorem Operand.isLocal_temp (number : Nat) :
    (Operand.temp number).IsLocal := trivial

theorem Operand.IsLocal.fit
    {own : Prop} {callee : Callee} {target : Operand}
    (isLocal : target.IsLocal) :
    target.Fit own callee := by
  constructor
  · rintro rfl
    exact isLocal
  · rintro rfl
    exact isLocal.elim

namespace Obeys

variable {inside : Nat → Prop} {own : Prop} {callee : Callee}
  {first second code : List Instruction}

theorem nil : Obeys inside callee [] := by
  constructor <;> simp

theorem mono
    {wider : Nat → Prop} (obeys : Obeys inside callee code)
    (within : ∀ index, index < code.length → inside index → wider index) :
    Obeys wider callee code where
  resumeWritten := obeys.resumeWritten
  entered := obeys.entered
  resumeRead index instruction here read := by
    have bound := (List.getElem?_eq_some_iff.mp here).1
    have left := obeys.resumeRead index instruction here read
    exact ⟨left.1, within index bound left.2⟩
  resultWritten index instruction here written := by
    have bound := (List.getElem?_eq_some_iff.mp here).1
    exact within index bound (obeys.resultWritten index instruction here written)
  resultRead := obeys.resultRead

/-- An instruction of the second part has the same instructions before and behind it,
and so has one of the first part as far as there are any. -/
theorem append
    (earlier : Obeys inside callee first)
    (later : Obeys (fun index => inside (first.length + index)) callee second) :
    Obeys inside callee (first ++ second) := by
  have cases {index : Nat} {instruction : Instruction}
      (here : (first ++ second)[index]? = some instruction) :
      first[index]? = some instruction ∨
        ∃ position, index = first.length + position ∧
          second[position]? = some instruction := by
    rw [List.getElem?_append] at here
    by_cases within : index < first.length
    · rw [if_pos within] at here
      exact Or.inl here
    · rw [if_neg within] at here
      exact Or.inr ⟨index - first.length, by omega, here⟩
  have inFirst {index : Nat} {instruction : Instruction}
      (here : first[index]? = some instruction) :
      (first ++ second)[index]? = some instruction := by
    have bound := (List.getElem?_eq_some_iff.mp here).1
    rw [List.getElem?_append_left bound]
    exact here
  have inSecond {position : Nat} {instruction : Instruction}
      (here : second[position]? = some instruction) :
      (first ++ second)[first.length + position]? = some instruction := by
    rw [List.getElem?_append_right (Nat.le_add_right _ _),
      Nat.add_sub_cancel_left]
    exact here
  constructor
  · intro index instruction here written
    rcases cases here with found | ⟨position, rfl, found⟩
    · have call := earlier.resumeWritten index instruction found written
      exact ⟨call.1, inFirst call.2⟩
    · have call := later.resumeWritten position instruction found written
      exact ⟨call.1, inSecond call.2⟩
  · intro index condition here
    rcases cases here with found | ⟨position, rfl, found⟩
    · obtain ⟨always, before, rfl, call⟩ :=
        earlier.entered index condition found
      exact ⟨always, before, rfl, inFirst call⟩
    · obtain ⟨always, before, rfl, call⟩ :=
        later.entered position condition found
      exact ⟨always, first.length + before, rfl, inSecond call⟩
  · intro index instruction here read
    rcases cases here with found | ⟨position, rfl, found⟩
    · exact earlier.resumeRead index instruction found read
    · exact later.resumeRead position instruction found read
  · intro index instruction here written
    rcases cases here with found | ⟨position, rfl, found⟩
    · exact earlier.resultWritten index instruction found written
    · exact later.resultWritten position instruction found written
  · intro index instruction here read
    rcases cases here with found | ⟨position, rfl, found⟩
    · obtain ⟨shape, before, rfl, call⟩ :=
        earlier.resultRead index instruction found read
      exact ⟨shape, before, rfl, inFirst call⟩
    · obtain ⟨shape, before, rfl, call⟩ :=
        later.resultRead position instruction found read
      exact ⟨shape, first.length + before, rfl, inSecond call⟩

/-- An instruction that belongs to no call of the function: it may leave the
function, or have nothing to do with it. -/
theorem single
    {instruction : Instruction}
    (target : ∀ operand ∈ instruction.target?, operand.Fit own callee)
    (sources : ∀ operand ∈ instruction.sources,
      (operand = .resume callee.name →
        instruction = .set .counter (.resume callee.name) ∧ own) ∧
        operand ≠ .result callee.name)
    (straight : ∀ condition, instruction ≠ .jump callee.home condition) :
    Obeys (fun _ => own) callee [instruction] := by
  have only {index : Nat} {other : Instruction}
      (here : [instruction][index]? = some other) : instruction = other := by
    cases index with
    | zero =>
        exact Option.some.inj here
    | succ =>
        cases here
  constructor
  · intro index other here written
    cases only here
    exact absurd rfl (target _ written).resume
  · intro index condition here
    exact absurd (only here) (straight condition)
  · intro index other here read
    cases only here
    exact (sources _ read).1 rfl
  · intro index other here written
    cases only here
    exact (target _ written).result rfl
  · intro index other here read
    cases only here
    exact absurd rfl (sources _ read).2

/-- An instruction that computes something from operands that belong to no
function. -/
theorem local_single
    {instruction : Instruction}
    (target : ∀ operand ∈ instruction.target?, operand.Fit own callee)
    (sources : ∀ operand ∈ instruction.sources, operand.IsLocal)
    (straight : ∀ condition, instruction ≠ .jump callee.home condition) :
    Obeys (fun _ => own) callee [instruction] := by
  refine single target (fun operand member => ?_) straight
  have isLocal := sources operand member
  constructor
  · rintro rfl
    exact isLocal.elim
  · rintro rfl
    exact isLocal

/-- A call of the function, whose result is stored or not. -/
theorem call
    {target : Operand} (fit : target.Fit own callee) {rest : List Instruction}
    (stored : rest = [] ∨ rest = [.set target (.result callee.name)]) :
    Obeys (fun _ => own) callee (callee.enter ++ rest) := by
  have cases {index : Nat} {instruction : Instruction}
      (here : (callee.enter ++ rest)[index]? = some instruction) :
      index = 0 ∧ instruction = callee.record ∨
        index = 1 ∧ instruction = .jump callee.home .always ∨
        index = 2 ∧ instruction = .set target (.result callee.name) := by
    match index with
    | 0 => exact Or.inl ⟨rfl, (Option.some.inj here).symm⟩
    | 1 => exact Or.inr (Or.inl ⟨rfl, (Option.some.inj here).symm⟩)
    | index + 2 =>
        rcases stored with rfl | rfl
        · cases here
        · cases index with
          | zero =>
              exact Or.inr (Or.inr ⟨rfl, (Option.some.inj here).symm⟩)
          | succ =>
              cases here
  constructor
  · intro index instruction here written
    rcases cases here with ⟨rfl, rfl⟩ | ⟨rfl, rfl⟩ | ⟨rfl, rfl⟩
    · exact ⟨rfl, rfl⟩
    · cases written
    · exact absurd (Option.some.inj written) fit.resume
  · intro index condition here
    rcases cases here with ⟨rfl, same⟩ | ⟨rfl, same⟩ | ⟨rfl, same⟩
    · cases same
    · cases same
      exact ⟨rfl, 0, rfl, rfl⟩
    · cases same
  · intro index instruction here read
    rcases cases here with ⟨rfl, rfl⟩ | ⟨rfl, rfl⟩ | ⟨rfl, rfl⟩
    · simp [Callee.record, Instruction.sources, Operand.counter] at read
    · cases read
    · simp [Instruction.sources] at read
  · intro index instruction here written
    rcases cases here with ⟨rfl, rfl⟩ | ⟨rfl, rfl⟩ | ⟨rfl, rfl⟩
    · simp [Callee.record, Instruction.target?] at written
    · cases written
    · exact fit.result (Option.some.inj written)
  · intro index instruction here read
    rcases cases here with ⟨rfl, rfl⟩ | ⟨rfl, rfl⟩ | ⟨rfl, rfl⟩
    · simp [Callee.record, Instruction.sources, Operand.counter] at read
    · cases read
    · exact ⟨⟨target, rfl⟩, 1, rfl, rfl⟩

theorem of_forall
    (each : ∀ instruction ∈ code,
      Obeys (fun _ => own) callee [instruction]) :
    Obeys (fun _ => own) callee code := by
  induction code with
  | nil =>
      exact nil
  | cons head tail inductionHypothesis =>
      rw [List.forall_mem_cons] at each
      exact append each.1 (inductionHypothesis each.2)

theorem storing
    {target : Operand} {instruction : Instruction}
    (obeys : Obeys (fun _ => own) callee [instruction]) :
    Obeys (fun _ => own) callee (FlatCode.storing target instruction) := by
  unfold FlatCode.storing
  by_cases discarded : target = .discard
  · rw [if_pos discarded]
    exact nil
  · rw [if_neg discarded]
    exact obeys

/-- An instruction without operands. -/
theorem idle
    {instruction : Instruction} (target : instruction.target? = none)
    (sources : instruction.sources = [])
    (straight : ∀ condition, instruction ≠ .jump callee.home condition) :
    Obeys inside callee [instruction] := by
  have nowhere : Obeys (fun _ => False) callee [instruction] :=
    local_single (by simp [target]) (by simp [sources]) straight
  exact nowhere.mono fun _ _ outside => outside.elim

theorem jump
    {target : Label} (other : target ≠ callee.home) :
    Obeys (fun _ => own) callee [.jump target .always] := by
  apply idle rfl rfl
  intro condition same
  cases same
  exact other rfl

end Obeys

/-! ## Code of expressions -/

/-- A function differs from other functions in its name and its home. -/
def Callee.Apart (callee : Callee) (functions : List Callee) : Prop :=
  ∀ other ∈ functions,
    other = callee ∨ other.name ≠ callee.name ∧ other.home ≠ callee.home

namespace Expr

variable {own : Prop} {callee : Callee} {functions : List Callee}

@[simp]
theorem isLocal_operand (expr : Expr) (temps : Nat) :
    (expr.lower .anywhere temps).operand.IsLocal := by
  by_cases atom : expr.IsAtom
  · cases expr with
    | atom truth text =>
        rw [lower_anywhere_atom]
        trivial
    | binary | call | load =>
        exact atom.elim
  · rw [lower_anywhere_eq_into atom, operand_lower_into]
    trivial

theorem isLocal_operands (temps : Nat) (args : List Expr) :
    ∀ operand ∈ (lowerArguments temps args).operands, operand.IsLocal := by
  induction args generalizing temps with
  | nil =>
      simp [lowerArguments]
  | cons first others inductionHypothesis =>
      simp only [lowerArguments, operand_lower_into]
      exact List.forall_mem_cons.mpr ⟨trivial, inductionHypothesis _⟩

theorem obeys_anywhere
    {expr : Expr} (temps : Nat)
    (obeys : ∀ target temps, target.Fit own callee →
      Obeys (fun _ => own) callee (expr.lower (.into target) temps).code) :
    Obeys (fun _ => own) callee (expr.lower .anywhere temps).code := by
  by_cases atom : expr.IsAtom
  · cases expr with
    | atom truth text =>
        rw [lower_anywhere_atom]
        exact .nil
    | binary | call | load =>
        exact atom.elim
  · rw [lower_anywhere_eq_into atom]
    apply obeys
    exact Operand.IsLocal.fit trivial

theorem obeys_lowerArguments
    {args : List Expr} (temps : Nat)
    (obeys : ∀ arg ∈ args, ∀ target temps, target.Fit own callee →
      Obeys (fun _ => own) callee (arg.lower (.into target) temps).code) :
    Obeys (fun _ => own) callee (lowerArguments temps args).code := by
  induction args generalizing temps with
  | nil =>
      simp only [lowerArguments]
      exact .nil
  | cons first others inductionHypothesis =>
      rw [List.forall_mem_cons] at obeys
      have head :=
        obeys.1 (.temp (temps + 1)) (temps + 1)
          (Operand.IsLocal.fit trivial)
      simp only [lowerArguments]
      exact head.append (inductionHypothesis _ obeys.2)

theorem obeys_passArguments
    (other : Callee) {values : List Operand}
    (isLocal : ∀ value ∈ values, value.IsLocal) :
    Obeys (fun _ => own) callee (other.passArguments values) := by
  apply Obeys.of_forall
  intro instruction member
  obtain ⟨position, bound, rfl⟩ := List.getElem_of_mem member
  simp only [Callee.passArguments, List.getElem_zipWith]
  apply Obeys.local_single
  · simp only [Instruction.target?, Option.mem_some_iff, forall_eq']
    exact Operand.IsLocal.fit trivial
  · simp only [Instruction.sources, List.forall_mem_singleton]
    exact isLocal _ (List.getElem_mem _)
  · simp

/-- A call of some function, whose result is stored. -/
theorem obeys_enter
    {other : Callee}
    (apart : other = callee ∨
      other.name ≠ callee.name ∧ other.home ≠ callee.home)
    {target : Operand} (fit : target.Fit own callee) :
    Obeys (fun _ => own) callee
      (other.enter ++ storing target (.set target (.result other.name))) := by
  rcases apart with same | apart
  · subst same
    apply Obeys.call fit
    unfold storing
    by_cases discarded : target = .discard
    · rw [if_pos discarded]
      exact Or.inl rfl
    · rw [if_neg discarded]
      exact Or.inr rfl
  · have recorded : Obeys (fun _ => own) callee [other.record] := by
      apply Obeys.local_single
      · simp only [Callee.record, Instruction.target?, Option.mem_some_iff,
          forall_eq']
        exact ⟨by simpa using apart.1, by simp⟩
      · simp [Callee.record, Instruction.sources, Operand.counter]
      · simp [Callee.record]
    have stored :
        Obeys (fun _ => own) callee [.set target (.result other.name)] := by
      apply Obeys.single
      · simpa [Instruction.target?] using fit
      · simpa [Instruction.sources] using apart.1
      · simp
    exact (recorded.append (Obeys.jump apart.2)).append stored.storing

theorem obeys_into
    {expr : Expr} (apart : callee.Apart functions)
    (linked : expr.Linked functions) {target : Operand} (temps : Nat)
    (fit : target.Fit own callee) :
    Obeys (fun _ => own) callee (expr.lower (.into target) temps).code := by
  induction expr generalizing target temps with
  | atom truth text =>
      rw [lower_into_atom]
      apply Obeys.storing
      apply Obeys.local_single
      · simpa [Instruction.target?] using fit
      · simp [Instruction.sources]
      · simp
  | binary truth operator lhs rhs lhsObeys rhsObeys =>
      have left :=
        obeys_anywhere temps fun _ temps fit => lhsObeys linked.1 temps fit
      have right :=
        obeys_anywhere (lhs.lower .anywhere temps).temps
          fun _ temps fit => rhsObeys linked.2 temps fit
      rw [lower_into_binary]
      refine left.append (right.append (Obeys.storing ?_))
      apply Obeys.local_single
      · simpa [Instruction.target?] using fit
      · simp [Instruction.sources]
      · simp
  | call truth other args argsObey =>
      obtain ⟨member, _, argsLinked⟩ := linked
      rw [linkedAll_iff] at argsLinked
      have passed :=
        obeys_lowerArguments temps fun arg argMember _ temps fit =>
          argsObey arg argMember (argsLinked arg argMember) temps fit
      have params :
          Obeys (fun _ => own) callee
            (other.passArguments (lowerArguments temps args).operands) :=
        obeys_passArguments other (isLocal_operands temps args)
      rw [lower_into_call]
      exact
        passed.append (params.append (obeys_enter (apart other member) fit))
  | load truth cell index indexObeys =>
      have place :=
        obeys_anywhere temps fun _ temps fit => indexObeys linked temps fit
      rw [lower_into_load]
      refine place.append (Obeys.storing ?_)
      apply Obeys.local_single
      · simpa [Instruction.target?] using fit
      · simp [Instruction.sources]
      · simp

theorem obeys_lower_anywhere
    {expr : Expr} (apart : callee.Apart functions)
    (linked : expr.Linked functions) (temps : Nat) :
    Obeys (fun _ => own) callee (expr.lower .anywhere temps).code :=
  obeys_anywhere temps fun _ temps fit => obeys_into apart linked temps fit

theorem obeys_lowerCondition
    {expr : Expr} (apart : callee.Apart functions)
    (linked : expr.Linked functions) {target : Label}
    (other : target ≠ callee.home) (temps : Nat) :
    Obeys (fun _ => own) callee
      (expr.lowerCondition target true temps).1 := by
  have tested (operator : Operator) {lhs rhs : Operand}
      (lhsLocal : lhs.IsLocal) (rhsLocal : rhs.IsLocal) :
      Obeys (fun _ => own) callee
        [.jump target (.compare operator lhs rhs)] := by
    apply Obeys.local_single
    · simp [Instruction.target?]
    · simpa [Instruction.sources] using And.intro lhsLocal rhsLocal
    · intro condition same
      cases same
      exact other rfl
  rcases lowerCondition_cases expr target temps with comparison | shape
  · obtain ⟨truth, operator, other, lhs, rhs, rfl, _, shape⟩ := comparison
    have left : Obeys (fun _ => own) callee (lhs.lower .anywhere temps).code :=
      obeys_lower_anywhere apart linked.1 temps
    have right :
        Obeys (fun _ => own) callee
          (rhs.lower .anywhere (lhs.lower .anywhere temps).temps).code :=
      obeys_lower_anywhere apart linked.2 _
    rw [shape]
    exact
      left.append
        (right.append
          (tested _ (isLocal_operand lhs _) (isLocal_operand rhs _)))
  · have value :
        Obeys (fun _ => own) callee (expr.lower .anywhere temps).code :=
      obeys_lower_anywhere apart linked temps
    rw [shape]
    exact value.append (tested _ (isLocal_operand expr _) trivial)

end Expr

/-! ## Code of statements and functions -/

namespace Stmt

/-- Code in the body of a function stores its result and leaves it. -/
theorem composes_obeys
    {callee : Callee} {functions : List Callee}
    (apart : callee.Apart functions) (function : Option String) :
    Composes (Program.linkedParts functions function) (· ≠ callee.home)
      (Obeys (fun _ => function = some callee.name) callee) where
  nil := .nil
  append first second := first.append second
  assign _ read temps :=
    Expr.obeys_into apart (Program.linked_of_value read) temps
      (Operand.IsLocal.fit trivial)
  operand read temps :=
    Expr.obeys_lower_anywhere apart (Program.linked_of_value read) temps
  write _ _ _ first second := by
    apply Obeys.local_single
    · simp [Instruction.target?]
    · simp [Instruction.sources]
    · simp
  test read other temps := Expr.obeys_lowerCondition apart read other temps
  result around read temps := by
    apply Expr.obeys_into apart (Program.linked_of_value read)
    refine ⟨by simp, fun same => ?_⟩
    cases same
    exact around
  leave around := by
    apply Obeys.single
    · simp only [Instruction.target?, Option.mem_some_iff, forall_eq']
      exact Operand.IsLocal.fit trivial
    · simp only [Instruction.sources, List.forall_mem_singleton]
      refine ⟨fun same => ?_, by simp⟩
      cases same
      exact ⟨rfl, around⟩
    · simp
  jump other := Obeys.jump other
  raw _ := Obeys.idle rfl rfl (by simp)

end Stmt

namespace Function

variable {earlier functions : List Function} {created : Nat} {callee : Callee}

/-- The positions in the blocks of a function. -/
def Inside (blocks : List Block) (callee : Callee) (address : Nat) : Prop :=
  ∃ block ∈ blocks,
    block.function.name = callee.name ∧ block.address ≤ address ∧
      address < block.limit

theorem obeys_lowerAll
    (formed : FormedAll Program.linkedParts earlier created functions)
    (apart : callee.Apart ((earlier ++ functions).map Function.callee))
    (address : Nat) {supply : Supply}
    (other : ∀ block ∈ blocks earlier address supply functions,
      ∀ label ∈
        placed (Stmt.lowerAll block.supply block.function.body).1,
          label ≠ callee.home) :
    Obeys
      (fun index =>
        Inside (blocks earlier address supply functions) callee
          (address + index))
      callee (instructions (lowerAll supply functions).1) := by
  induction functions generalizing earlier created address supply with
  | nil =>
      exact .nil
  | cons first others inductionHypothesis =>
      rw [blocks, List.forall_mem_cons] at other
      have above : callee.Apart (earlier.map Function.callee) := by
        intro known member
        apply apart
        rw [List.map_append]
        exact List.mem_append_left _ member
      have body :
          Obeys (fun _ => some first.name = some callee.name) callee
            (instructions (Stmt.lowerAll supply first.body).1) :=
        Stmt.holds_lowerAll (Stmt.composes_obeys above (some first.name))
          first.body none created supply formed.1.body other.1 (by simp)
      have rest :=
        inductionHypothesis formed.2
          (by rwa [List.append_assoc, List.singleton_append])
          (address + width (first.lower supply).1) other.2
      have own :
          Block.limit ⟨earlier, first, address, supply⟩ =
            address +
              (instructions (Stmt.lowerAll supply first.body).1).length := rfl
      rw [lowerAll_cons, instructions_append, blocks]
      apply Obeys.append
      · apply body.mono
        intro index bound same
        refine
          ⟨_, List.mem_cons_self, Option.some.inj same, Nat.le_add_right _ _,
            ?_⟩
        rw [own]
        exact Nat.add_lt_add_left bound _
      · apply rest.mono
        intro index _ within
        obtain ⟨block, member, name, bounds⟩ := within
        refine ⟨block, List.mem_cons_of_mem _ member, name, ?_⟩
        rw [← Nat.add_assoc]
        exact bounds

end Function

namespace Program

variable {program : Program} {emitted : Assembly} {block : Block}

theorem nodup_homes (formed : program.WellFormed) :
    (program.functions.map Function.home).Nodup := by
  have once := nodup_placed_parts formed
  have homes (supply : Supply) (functions : List Function) :
      (functions.map Function.home).Sublist
        (placed (Function.lowerAll supply functions).1) := by
    induction functions generalizing supply with
    | nil =>
        exact List.Sublist.refl _
    | cons first others inductionHypothesis =>
        rw [Function.lowerAll_cons, Function.lower_eq, placed_append,
          placed_place]
        apply List.Sublist.cons_cons
        apply (inductionHypothesis (first.lower supply).2).trans
        exact List.sublist_append_right _ _
  exact (List.nodup_append.mp once).2.1.sublist (homes _ _)

/-- Functions differ in their names and their homes. -/
theorem apart_of_mem
    (formed : program.WellFormed) {function : Function}
    (member : function ∈ program.functions) :
    function.callee.Apart (program.functions.map Function.callee) := by
  have names : (program.functions.map Function.name).Nodup :=
    Function.nodup_names formed.functions List.nodup_nil
  have homes := nodup_homes formed
  intro callee listed
  obtain ⟨other, otherMember, rfl⟩ := List.mem_map.mp listed
  by_cases same : other = function
  · exact Or.inl (congrArg Function.callee same)
  · refine Or.inr ⟨fun sameName => same ?_, fun sameHome => same ?_⟩
    · exact List.inj_on_of_nodup_map names otherMember member sameName
    · exact List.inj_on_of_nodup_map homes otherMember member sameHome

theorem function_mem_of_mem_blocks (member : block ∈ program.blocks) :
    block.function ∈ program.functions := by
  rw [← Function.map_function_blocks [] (program.mainWidth + 1)
    program.mainCode.2 program.functions]
  exact List.mem_map_of_mem member

/-- A function has one block. -/
theorem within_of_inside
    (formed : program.WellFormed) (member : block ∈ program.blocks)
    {address : Nat}
    (inside : Function.Inside program.blocks block.function.callee address) :
    block.address ≤ address ∧ address < block.limit := by
  obtain ⟨other, otherMember, sameName, bounds⟩ := inside
  have names :
      (program.blocks.map fun block => block.function.name).Nodup := by
    have listed :
        (program.blocks.map fun block => block.function.name) =
          program.functions.map Function.name := by
      rw [← Function.map_function_blocks [] (program.mainWidth + 1)
        program.mainCode.2 program.functions, List.map_map]
      rfl
    rw [listed]
    exact Function.nodup_names formed.functions List.nodup_nil
  have same : other = block :=
    List.inj_on_of_nodup_map names otherMember member sameName
  rwa [same] at bounds

/-- The code of a program uses the variables of each function as calls do. -/
theorem obeys_code
    (formed : program.WellFormed) (member : block ∈ program.blocks)
    (assembled :
      Assembly.ofEntries program.labels program.lower = .ok emitted) :
    Obeys (fun address => block.address ≤ address ∧ address < block.limit)
      block.function.callee emitted.guarded.code.toList := by
  have functionMember := function_mem_of_mem_blocks member
  have apart := apart_of_mem formed functionMember
  have once := nodup_placed_parts formed
  have parts := List.nodup_append.mp once
  have main :
      Obeys (fun _ => none = some block.function.name) block.function.callee
        (instructions program.mainCode.1) := by
    apply Stmt.holds_lowerAll (Stmt.composes_obeys apart none) program.main
      none _ _ formed.main
    · intro label placed same
      have home :=
        Function.home_mem_placed functionMember program.mainCode.2
      exact parts.2.2 label placed _ home same
    · simp
  have functions :=
    Function.obeys_lowerAll formed.functions apart (program.mainWidth + 1)
      (fun other otherMember label placed =>
        (Function.home_ne_of_nodup parts.2.1 otherMember placed
          functionMember).symm)
  have whole :
      Obeys (fun address => block.address ≤ address ∧ address < block.limit)
        block.function.callee (instructions program.lower) := by
    have some : program.functions ≠ [] := List.ne_nil_of_mem functionMember
    rw [lower_eq_append, instructions_append, functionCode_of_ne_nil some,
      instructions_emit]
    apply Obeys.append
    · exact main.mono fun _ _ outside => nomatch outside
    · refine Obeys.append (Obeys.idle rfl rfl (by simp)) ?_
      apply functions.mono
      intro index _ inside
      apply within_of_inside formed member
      rw [← Nat.add_assoc]
      exact inside
  rcases toList_guarded assembled with code | code
  · rw [code]
    exact whole
  · rw [code]
    exact whole.append (Obeys.idle rfl rfl (by simp))

end Program

/-! ## The convention in terms of names -/

/-- Assembled code uses the variables of the function of a block as calls do, where
variables are told apart by their names. -/
structure Assembly.Conforms (assembly : Assembly) (block : Block) : Prop where
  home : assembly.labels.address? block.function.home = some block.address
  resumeWritten : ∀ address,
    assembly.Writes address (Operand.resume block.function.name).render →
      assembly.code[address]? =
          some
            (.op .add (.resume block.function.name) .counter (.word "1")) ∧
        assembly.code[address + 1]? =
          some (.jump block.function.home .always)
  entered : ∀ (address : Nat) condition,
    assembly.code[address]? = some (.jump block.function.home condition) →
      condition = .always ∧
        ∃ before, address = before + 1 ∧
          assembly.code[before]? =
            some
              (.op .add (.resume block.function.name) .counter (.word "1"))
  resumeRead : ∀ address,
    assembly.Reads address (Operand.resume block.function.name).render →
      assembly.code[address]? =
          some (.set .counter (.resume block.function.name)) ∧
        block.address ≤ address ∧ address < block.limit
  resultWritten : ∀ address,
    assembly.Writes address (Operand.result block.function.name).render →
      block.address ≤ address ∧ address < block.limit
  resultRead : ∀ address,
    assembly.Reads address (Operand.result block.function.name).render →
      (∃ target,
        assembly.code[address]? =
          some (.set target (.result block.function.name))) ∧
        ∃ before, address = before + 1 ∧
          assembly.code[before]? = some (.jump block.function.home .always)

namespace Program

variable {source : String} {program : Program} {emitted : Assembly}
  {block : Block}

theorem conforms_of_mem
    (read : parse source = .ok program)
    (assembled :
      Assembly.ofEntries program.labels program.lower = .ok emitted)
    (member : block ∈ program.blocks) :
    emitted.guarded.Conforms block := by
  have obeys := obeys_code (wellFormed_of_parse read) member assembled
  have proper := proper_of_parse read assembled
  have carried := carries_of_mem_blocks assembled member
  have lookup (address : Nat) :
      emitted.guarded.code.toList[address]? = emitted.guarded.code[address]? :=
    Array.getElem?_toList
  have resume : (Operand.resume block.function.name).Proper := trivial
  have result : (Operand.result block.function.name).Proper := trivial
  constructor
  · exact carried.1
  · intro address written
    rw [Assembly.writes_render proper resume] at written
    obtain ⟨instruction, here, target⟩ := written
    rw [← lookup] at here
    have call := obeys.resumeWritten address instruction here target
    rw [lookup, call.1] at here
    exact ⟨here, (lookup _).symm.trans call.2⟩
  · intro address condition here
    rw [← lookup] at here
    obtain ⟨always, before, behind, call⟩ := obeys.entered address _ here
    exact ⟨always, before, behind, (lookup _).symm.trans call⟩
  · intro address used
    rw [Assembly.reads_render proper resume] at used
    obtain ⟨instruction, here, source⟩ := used
    rw [← lookup] at here
    have leave := obeys.resumeRead address instruction here source
    rw [lookup, leave.1] at here
    exact ⟨here, leave.2⟩
  · intro address written
    rw [Assembly.writes_render proper result] at written
    obtain ⟨instruction, here, target⟩ := written
    rw [← lookup] at here
    exact obeys.resultWritten address instruction here target
  · intro address used
    rw [Assembly.reads_render proper result] at used
    obtain ⟨instruction, here, source⟩ := used
    rw [← lookup] at here
    obtain ⟨shape, before, behind, call⟩ :=
      obeys.resultRead address instruction here source
    obtain ⟨target, rfl⟩ := shape
    rw [lookup] at here
    exact
      ⟨⟨target, here⟩, before, behind, (lookup _).symm.trans call⟩

/-- The variables of a program and its source: those of its functions, the
temporaries, and the identifiers of the source. -/
inductive Variable (source : String) (program : Program) : Operand → Prop
  | resume {function : Function} :
      function ∈ program.functions →
        Variable source program (.resume function.name)
  | result {function : Function} :
      function ∈ program.functions →
        Variable source program (.result function.name)
  | temp (number : Nat) : Variable source program (.temp number)
  | identifier {token : Token} :
      token ∈ (Token.Stream.ofString source).tokens →
        token.kind = .identifier →
          Variable source program (.word token.payload)

theorem Variable.proper
    {operand : Operand} (known : Variable source program operand) :
    operand.Proper := by
  cases known with
  | resume | result | temp =>
      trivial
  | @identifier token member identifier =>
      have written := Token.written_ofString source token member
      exact (written.word (Or.inr identifier)).undollared

/-- Calls follow a convention: in the code of a program that was read, the return
address of a function is written only right before a jump to the function and read
only where its block leaves it, and every jump to the function has such an
instruction before it.  The result is written only in the block of the function and
read only right behind a jump to it.  Functions have different names, and different
variables have different names. -/
theorem calls_follow_convention
    (read : parse source = .ok program) :
    ∃ assembly,
      program.assemble = .ok assembly ∧
        program.blocks.map Block.function = program.functions ∧
        (∀ block ∈ program.blocks, assembly.Conforms block) ∧
        (program.functions.map Function.name).Nodup ∧
        ∀ first second,
          Variable source program first → Variable source program second →
            first.render = second.render → first = second := by
  have formed := wellFormed_of_parse read
  obtain ⟨emitted, assembled⟩ := exists_ofEntries formed
  refine ⟨emitted.guarded, assemble_eq assembled, ?_, ?_, ?_, ?_⟩
  · exact Function.map_function_blocks _ _ _ _
  · intro block member
    exact conforms_of_mem read assembled member
  · exact Function.nodup_names formed.functions List.nodup_nil
  · intro first second firstKnown secondKnown same
    rwa [Operand.render_inj firstKnown.proper secondKnown.proper] at same

/-- A function that calls another one twice, once for nothing. -/
theorem calls_follow_convention_of_nested_calls :
    ∃ program assembly block,
      parse
          "def f(a) { return a; }\ndef g(b) { _ = f(b); return f(b); }\nx = g(2);" =
        .ok program ∧
        program.assemble = .ok assembly ∧
        block ∈ program.blocks ∧ block.function.name = "f" ∧
        ∀ address, assembly.Reads address "$ret$f" →
          ∃ before, address = before + 1 ∧
            assembly.code[before]? =
              some (.jump block.function.home .always) := by
  obtain ⟨program, read, named⟩ :=
    exists_of_accepted
      (show ((parse
          "def f(a) { return a; }\ndef g(b) { _ = f(b); return f(b); }\nx = g(2);").toOption.any
            fun program =>
              decide (program.functions.map Function.name = ["f", "g"])) =
            true by
        decide +kernel)
  have named : program.functions.map Function.name = ["f", "g"] :=
    of_decide_eq_true named
  obtain ⟨assembly, assembled, listed, conforms, _⟩ :=
    calls_follow_convention read
  have first :
      ∃ block ∈ program.blocks, block.function.name = "f" := by
    have member : "f" ∈ program.functions.map Function.name := by simp [named]
    rw [← listed, List.map_map] at member
    simpa using member
  obtain ⟨block, member, name⟩ := first
  refine ⟨program, assembly, block, read, assembled, member, name, ?_⟩
  intro address used
  have result := (conforms block member).resultRead address
  rw [name] at result
  exact (result used).2

end Program

end FlatCode
