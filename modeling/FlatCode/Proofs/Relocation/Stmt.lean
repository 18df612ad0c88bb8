import FlatCode.Proofs.Layout.Assembly
import FlatCode.Proofs.Lowering.Stmt
import FlatCode.Proofs.Reading.Link
import FlatCode.Proofs.Relocation.Expr

/-!
# Statement code under other supplies

The code of a statement depends on the supply of labels and temporaries with which
it is made.  With another supply it is the same code, with the numbers of its
temporaries raised and with other names for its labels: `Stmt.relocates_of_formed`.

Which labels a statement creates is known from its supply.  The labels of its loops
come from reading, and they can be renamed at the same time: `Stmt.relabel`.

All this is about statements without calls, as they stand in a program without
functions.  The home of a function is not renamed.
-/

namespace FlatCode

open Entry

def Label.raise (amount : Nat) (label : Label) : Label :=
  ⟨label.number + amount⟩

def Instruction.relabel (rename : Label → Label) : Instruction → Instruction
  | .jump target condition => .jump (rename target) condition
  | .set target value => .set target value
  | .op operator target lhs rhs => .op operator target lhs rhs
  | .read target cell index => .read target cell index
  | .write value cell index => .write value cell index
  | .raw text => .raw text
  | .halt => .halt
  | .noop => .noop

/-- Rename the label of an instruction, and raise the numbers of its
temporaries. -/
def Instruction.relocate
    (rename : Label → Label) (amount : Nat) (instruction : Instruction) :
    Instruction :=
  (instruction.shift amount).relabel rename

def Entry.relocate (rename : Label → Label) (amount : Nat) : Entry → Entry
  | .create => .create
  | .place label => .place (rename label)
  | .emit instruction => .emit (instruction.relocate rename amount)

section Relocate

variable (rename : Label → Label) (amount : Nat) (label : Label)

@[simp]
theorem Instruction.relocate_jump (condition : Condition) :
    (Instruction.jump label condition).relocate rename amount =
      .jump (rename label) (condition.shift amount) := rfl

@[simp]
theorem Entry.relocate_create :
    Entry.create.relocate rename amount = .create := rfl

@[simp]
theorem Entry.relocate_place :
    (Entry.place label).relocate rename amount = .place (rename label) := rfl

@[simp]
theorem Entry.relocate_emit (instruction : Instruction) :
    (Entry.emit instruction).relocate rename amount =
      .emit (instruction.relocate rename amount) := rfl

theorem map_relocate_emitAll (code : List Instruction) :
    (emitAll code).map (Entry.relocate rename amount) =
      emitAll (code.map (Instruction.relocate rename amount)) := by
  simp [emitAll]

end Relocate

variable {rename : Label → Label} {amount : Nat}

/-! ## Expressions without calls -/

theorem computes_of_straight
    {good : Operand → Prop} {code : List Instruction}
    (straight : Straight good [] code) :
    ∀ instruction ∈ code, instruction.Computes good := by
  induction straight with
  | nil =>
      simp
  | cons computes _ inductionHypothesis =>
      exact List.forall_mem_cons.mpr ⟨computes, inductionHypothesis⟩
  | enter member =>
      cases member

/-- An instruction that computes something has no label. -/
theorem Instruction.relocate_of_computes
    {good : Operand → Prop} {instruction : Instruction}
    (computes : instruction.Computes good) :
    instruction.relocate rename amount = instruction.shift amount := by
  cases instruction with
  | jump =>
      exact computes.elim
  | set | op | read | write | raw | halt | noop =>
      rfl

namespace Expr

variable {expr : Expr} (rename amount)

theorem straight_of_linked
    (linked : expr.Linked []) (destination : Destination) (temps : Nat) :
    Straight (fun _ => True) [] (expr.lower destination temps).code := by
  have allows : Allows (fun _ => True) [] :=
    ⟨fun _ => trivial, fun _ _ => trivial, fun _ _ _ _ => trivial⟩
  cases destination with
  | anywhere =>
      exact straight_lower_anywhere allows linked (fun _ _ => trivial) temps
  | into target =>
      exact straight_into allows linked (fun _ _ => trivial) temps trivial

theorem map_relocate_lower
    (linked : expr.Linked []) (destination : Destination) (temps : Nat) :
    (expr.lower destination temps).code.map
        (Instruction.relocate rename amount) =
      (expr.lower (destination.shift amount) (temps + amount)).code := by
  rw [lower_shift, Computed.shift]
  apply List.map_congr_left
  intro instruction member
  exact
    Instruction.relocate_of_computes
      (computes_of_straight (straight_of_linked linked destination temps)
        instruction member)

theorem temps_lower_shift (destination : Destination) (temps : Nat) :
    (expr.lower (destination.shift amount) (temps + amount)).temps =
      (expr.lower destination temps).temps + amount := by
  rw [lower_shift, Computed.shift]

theorem lowerCondition_relocate
    (linked : expr.Linked []) (target : Label) (temps : Nat) :
    expr.lowerCondition (rename target) true (temps + amount) =
      let test := expr.lowerCondition target true temps
      (test.1.map (Instruction.relocate rename amount), test.2 + amount) := by
  rcases comparison_cases expr with comparison | plain
  · obtain ⟨truth, operator, other, lhs, rhs, rfl, complemented⟩ := comparison
    have left := lower_shift amount lhs .anywhere temps
    have right :=
      lower_shift amount rhs .anywhere (lhs.lower .anywhere temps).temps
    rw [Destination.shift_anywhere] at left right
    simp only [lowerCondition_comparison _ _ _ complemented, List.map_append,
      map_relocate_lower rename amount linked.1,
      map_relocate_lower rename amount linked.2, Destination.shift_anywhere,
      left, List.map_cons, List.map_nil, Instruction.relocate_jump]
    rw [Computed.shift, right]
    rfl
  · have value := lower_shift amount expr .anywhere temps
    rw [Destination.shift_anywhere] at value
    simp only [lowerCondition_value _ _ _ plain, List.map_append,
      map_relocate_lower rename amount linked, Destination.shift_anywhere,
      value, List.map_cons, List.map_nil, Instruction.relocate_jump]
    rfl

end Expr

/-! ## Statements without calls -/

/-- The labels with `count` numbers from `start` on are renamed to those from
`other` on. -/
def Renames (rename : Label → Label) (start other count : Nat) : Prop :=
  ∀ index < count, rename ⟨start + index⟩ = ⟨other + index⟩

theorem Renames.part
    {start other count inner : Nat} (renames : Renames rename start other count)
    (skipped : Nat) (fits : skipped + inner ≤ count) :
    Renames rename (start + skipped) (other + skipped) inner := by
  intro index inside
  rw [Nat.add_assoc, Nat.add_assoc]
  exact renames (skipped + index) (by omega)

namespace Stmt

mutual

/-- Rename the labels of loops, and of the jumps that leave or repeat them. -/
def relabel (rename : Label → Label) : Stmt → Stmt
  | .assign target value => .assign target value
  | .store cell index value => .store cell index value
  | .ifThen condition thenBranch =>
      .ifThen condition (thenBranch.relabel rename)
  | .ifElse condition thenBranch elseBranch =>
      .ifElse condition (thenBranch.relabel rename)
        (elseBranch.relabel rename)
  | .loop home exit condition body =>
      .loop (rename home) (rename exit) condition (body.relabel rename)
  | .ret function value => .ret function value
  | .jump target => .jump (rename target)
  | .raw text => .raw text
  | .block body => .block (relabelAll rename body)
  | .empty => .empty

def relabelAll (rename : Label → Label) : List Stmt → List Stmt
  | [] => []
  | first :: others => first.relabel rename :: relabelAll rename others

end

attribute [local simp] relabel relabelAll

/-- With labels in use up to `labels` and `amount` more temporaries, a statement with
renamed labels has its old code, relocated. -/
def Relocates
    (rename : Label → Label) (amount : Nat) (stmt : Stmt) : Prop :=
  ∀ (supply : Supply) (labels : Nat),
    Renames rename supply.labels labels stmt.branchLabels →
      (stmt.relabel rename).lower ⟨labels, supply.temps + amount⟩ =
        ((stmt.lower supply).1.map (Entry.relocate rename amount),
          ⟨labels + stmt.branchLabels, (stmt.lower supply).2.temps + amount⟩)

def RelocatesAll
    (rename : Label → Label) (amount : Nat) (body : List Stmt) : Prop :=
  ∀ (supply : Supply) (labels : Nat),
    Renames rename supply.labels labels (branchLabelsAll body) →
      lowerAll ⟨labels, supply.temps + amount⟩ (relabelAll rename body) =
        ((lowerAll supply body).1.map (Entry.relocate rename amount),
          ⟨labels + branchLabelsAll body,
            (lowerAll supply body).2.temps + amount⟩)

variable {loop : Option LoopLabels} {created : Nat}

theorem relocates_assign
    {value : Expr} (linked : value.Linked []) (target : String) :
    (Stmt.assign target value).Relocates rename amount := by
  intro supply labels _
  have code :=
    Expr.map_relocate_lower rename amount linked (.into (.word target))
      supply.temps
  have temps :=
    value.temps_lower_shift amount (.into (.word target)) supply.temps
  rw [Destination.shift_into, Operand.shift_word] at code temps
  simp only [relabel, lower_assign, branchLabels, map_relocate_emitAll, code,
    temps, Nat.add_zero]

theorem relocates_store
    {index value : Expr} (indexLinked : index.Linked [])
    (valueLinked : value.Linked []) (cell : String) :
    (Stmt.store cell index value).Relocates rename amount := by
  intro supply labels _
  have stored := value.lower_shift amount .anywhere supply.temps
  have place :=
    index.lower_shift amount .anywhere
      (value.lower .anywhere supply.temps).temps
  rw [Destination.shift_anywhere] at stored place
  simp only [relabel, lower_store, branchLabels, map_relocate_emitAll,
    List.map_append, Expr.map_relocate_lower rename amount valueLinked,
    Expr.map_relocate_lower rename amount indexLinked,
    Destination.shift_anywhere, stored, Nat.add_zero]
  rw [Computed.shift, place]
  rfl

theorem relocates_ifThen
    {condition : Expr} {thenBranch : Stmt} (linked : condition.Linked [])
    (first : thenBranch.Relocates rename amount) :
    (Stmt.ifThen condition thenBranch).Relocates rename amount := by
  intro supply labels renames
  rw [branchLabels] at renames
  have exit : rename ⟨supply.labels⟩ = ⟨labels⟩ := renames 0 (by omega)
  have test :=
    Expr.lowerCondition_relocate rename amount linked ⟨supply.labels⟩
      supply.temps
  have branch :=
    first
      ⟨supply.labels + 1,
        (condition.lowerCondition ⟨supply.labels⟩ true supply.temps).2⟩
      (labels + 1) (renames.part 1 (by omega))
  rw [exit] at test
  simp only [relabel, lower_ifThen, test, branch, branchLabels,
    List.map_append, map_relocate_emitAll]
  simp [exit, Nat.add_assoc, Nat.add_comm 1]

theorem relocates_ifElse
    {condition : Expr} {thenBranch elseBranch : Stmt}
    (linked : condition.Linked [])
    (first : thenBranch.Relocates rename amount)
    (second : elseBranch.Relocates rename amount) :
    (Stmt.ifElse condition thenBranch elseBranch).Relocates rename amount := by
  intro supply labels renames
  rw [branchLabels] at renames
  have otherwise : rename ⟨supply.labels⟩ = ⟨labels⟩ := renames 0 (by omega)
  have exit : rename ⟨supply.labels + 1⟩ = ⟨labels + 1⟩ := renames 1 (by omega)
  have test :=
    Expr.lowerCondition_relocate rename amount linked ⟨supply.labels⟩
      supply.temps
  have branch :=
    first
      ⟨supply.labels + 2,
        (condition.lowerCondition ⟨supply.labels⟩ true supply.temps).2⟩
      (labels + 2) (renames.part 2 (by omega))
  have other :=
    second
      (thenBranch.lower
        ⟨supply.labels + 2,
          (condition.lowerCondition ⟨supply.labels⟩ true supply.temps).2⟩).2
      (labels + 2 + thenBranch.branchLabels)
      (by
        rw [labels_lower, Nat.add_assoc, Nat.add_assoc]
        exact renames.part (2 + thenBranch.branchLabels) (by omega))
  rw [otherwise] at test
  simp only [relabel, lower_ifElse, test, branch, other, branchLabels,
    List.map_append, map_relocate_emitAll]
  simp [otherwise, exit, Condition.shift, Nat.add_assoc, Nat.add_comm]

theorem relocates_loop
    {condition : Expr} {body : Stmt} (linked : condition.Linked [])
    (repeated : body.Relocates rename amount) (home exit : Label) :
    (Stmt.loop home exit condition body).Relocates rename amount := by
  intro supply labels renames
  have test :=
    Expr.lowerCondition_relocate rename amount linked exit supply.temps
  have inner :=
    repeated
      { supply with
        temps := (condition.lowerCondition exit true supply.temps).2 }
      labels renames
  simp only [relabel, lower_loop, test, inner, branchLabels, List.map_append,
    map_relocate_emitAll]
  simp [Condition.shift]

theorem relocatesAll_cons
    {head : Stmt} {tail : List Stmt} (first : head.Relocates rename amount)
    (others : RelocatesAll rename amount tail) :
    RelocatesAll rename amount (head :: tail) := by
  intro supply labels renames
  rw [branchLabelsAll] at renames
  have code := first supply labels (renames.part 0 (by omega))
  have rest :=
    others (head.lower supply).2 (labels + head.branchLabels)
      (by
        rw [labels_lower]
        exact renames.part head.branchLabels (by omega))
  simp only [relabelAll, lowerAll_cons, code, rest, branchLabelsAll,
    List.map_append, Nat.add_assoc]

mutual

/-- A statement without calls has the same code under every supply, but for the
names of its labels and the numbers of its temporaries. -/
theorem relocates_of_formed
    (rename : Label → Label) (amount : Nat) :
    ∀ (stmt : Stmt) {loop : Option LoopLabels} {created : Nat},
      stmt.Formed (Program.linkedParts [] none) loop created →
        stmt.Relocates rename amount
  | .assign target _, _, _, ⟨_, value⟩ =>
      relocates_assign (Program.linked_of_value value) target
  | .store cell _ _, _, _, ⟨_, index, value⟩ =>
      relocates_store (Program.linked_of_value index)
        (Program.linked_of_value value) cell
  | .ifThen _ thenBranch, _, _, ⟨condition, first⟩ =>
      relocates_ifThen condition (relocates_of_formed rename amount _ first)
  | .ifElse _ _ _, _, _, ⟨condition, first, second⟩ =>
      relocates_ifElse condition (relocates_of_formed rename amount _ first)
        (relocates_of_formed rename amount _ second)
  | .loop home exit _ _, _, _, ⟨_, _, condition, body⟩ =>
      relocates_loop condition (relocates_of_formed rename amount _ body) home
        exit
  | .ret _ _, _, _, ⟨inside, _⟩ => nomatch inside
  | .jump target, _, _, _ => fun supply labels _ => by
      simp [relabel, lower_jump, branchLabels, Condition.shift]
  | .raw text, _, _, _ => fun supply labels _ => by
      simp only [relabel, lower_raw, branchLabels]
      rfl
  | .block body, _, _, formed => fun supply labels renames => by
      rw [Formed] at formed
      rw [relabel, lower_block, lower_block, branchLabels]
      exact relocatesAll_of_formed rename amount body formed supply labels renames
  | .empty, _, _, _ => fun supply labels _ => by
      simp [relabel, lower_empty, branchLabels]

/-- Statements without calls have the same code under every supply, but for the
names of their labels and the numbers of their temporaries. -/
theorem relocatesAll_of_formed
    (rename : Label → Label) (amount : Nat) :
    ∀ (body : List Stmt) {loop : Option LoopLabels} {created : Nat},
      FormedAll (Program.linkedParts [] none) loop created body →
        RelocatesAll rename amount body
  | [], _, _, _ => fun supply labels _ => by
      simp [relabelAll, lowerAll_nil, branchLabelsAll]
  | first :: others, _, _, ⟨firstFormed, othersFormed⟩ =>
      relocatesAll_cons (relocates_of_formed rename amount first firstFormed)
        (relocatesAll_of_formed rename amount others othersFormed)

end

theorem lowerAll_append (supply : Supply) (first second : List Stmt) :
    lowerAll supply (first ++ second) =
      let code := lowerAll supply first
      let rest := lowerAll code.2 second
      (code.1 ++ rest.1, rest.2) := by
  induction first generalizing supply with
  | nil =>
      simp [lowerAll_nil]
  | cons head tail inductionHypothesis =>
      simp only [List.cons_append, lowerAll_cons, inductionHypothesis,
        List.append_assoc]

/-! ## Labels of loops -/

section Congruence

variable {parts : Parts} {bound : Nat} {other : Label → Label}

/-- The labels of a loop around a statement have numbers below a bound. -/
def LoopLabels.Below (bound : Nat) (labels : LoopLabels) : Prop :=
  labels.home.number < bound ∧ labels.exit.number < bound

mutual

/-- Only the labels of the loops around and inside of a statement are renamed. -/
theorem relabel_congr
    (same : ∀ number < bound, rename ⟨number⟩ = other ⟨number⟩) :
    ∀ (stmt : Stmt) {loop : Option LoopLabels} {created : Nat},
      stmt.Formed parts loop created → created + stmt.loopLabels ≤ bound →
        (∀ labels ∈ loop, labels.Below bound) →
          stmt.relabel rename = stmt.relabel other
  | .assign .., _, _, _, _, _ | .store .., _, _, _, _, _
  | .ret .., _, _, _, _, _ | .raw _, _, _, _, _, _ | .empty, _, _, _, _, _ => by
      simp only [relabel]
  | .ifThen _ thenBranch, _, _, ⟨_, first⟩, within, around => by
      rw [loopLabels] at within
      rw [relabel, relabel, relabel_congr same thenBranch first within around]
  | .ifElse _ thenBranch elseBranch, _, _, ⟨_, first, second⟩, within,
      around => by
      rw [loopLabels] at within
      rw [relabel, relabel,
        relabel_congr same thenBranch first (by omega) around,
        relabel_congr same elseBranch second (by omega) around]
  | .loop home exit _ body, _, _, ⟨isHome, isExit, _, inner⟩, within, _ => by
      rw [loopLabels] at within
      subst isHome isExit
      rw [relabel, relabel, same _ (by omega), same _ (by omega),
        relabel_congr same body inner (by omega)]
      rintro labels ⟨⟩
      exact ⟨by simp only; omega, by simp only; omega⟩
  | .jump target, _, _, ⟨labels, found, goes⟩, _, around => by
      obtain ⟨home, exit⟩ := around labels found
      rw [relabel, relabel]
      rcases goes with rfl | rfl
      · rw [same _ home]
      · rw [same _ exit]
  | .block body, _, _, formed, within, around => by
      rw [Formed] at formed
      rw [loopLabels] at within
      rw [relabel, relabel, relabelAll_congr same body formed within around]

theorem relabelAll_congr
    (same : ∀ number < bound, rename ⟨number⟩ = other ⟨number⟩) :
    ∀ (body : List Stmt) {loop : Option LoopLabels} {created : Nat},
      FormedAll parts loop created body →
        created + loopLabelsAll body ≤ bound →
          (∀ labels ∈ loop, labels.Below bound) →
            relabelAll rename body = relabelAll other body
  | [], _, _, _, _, _ => by
      rw [relabelAll, relabelAll]
  | first :: others, _, _, ⟨firstFormed, othersFormed⟩, within, around => by
      rw [loopLabelsAll] at within
      rw [relabelAll, relabelAll,
        relabel_congr same first firstFormed (by omega) around,
        relabelAll_congr same others othersFormed (by omega) around]

end

end Congruence

mutual

@[simp]
theorem relabel_id : ∀ stmt : Stmt, stmt.relabel id = stmt
  | .assign .. | .store .. | .ret .. | .jump _ | .raw _ | .empty => by
      simp [relabel]
  | .ifThen _ thenBranch => by
      simp [relabel, relabel_id thenBranch]
  | .ifElse _ thenBranch elseBranch => by
      simp [relabel, relabel_id thenBranch, relabel_id elseBranch]
  | .loop _ _ _ body => by
      simp [relabel, relabel_id body]
  | .block body => by
      simp [relabel, relabelAll_id body]

@[simp]
theorem relabelAll_id : ∀ body : List Stmt, relabelAll id body = body
  | [] => by
      rw [relabelAll]
  | first :: others => by
      rw [relabelAll, relabel_id first, relabelAll_id others]

end

end Stmt

end FlatCode
