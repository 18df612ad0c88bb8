import FlatCode.Lowering.Stmt
import FlatCode.Proofs.Layout.Assembly
import FlatCode.Proofs.Lowering.Expr

/-!
# The labels in statement code

A statement brings the labels of its loops with it, and its code creates those of
its conditionals.  The labels placed by the code are both of them together.  They
are counted one label at a time, so that the orders in which they are created and
placed do not matter.

The labels of the loops of a statement that was read are a range of numbers.

A property of code that passes from parts to the whole need only be shown of the
parts that each form of statement adds: `Composes`.
-/

namespace FlatCode

open Entry

def labelRange (start count : Nat) : List Label :=
  (List.range' start count).map Label.mk

@[simp]
theorem labelRange_zero (start : Nat) : labelRange start 0 = [] := rfl

theorem labelRange_succ (start count : Nat) :
    labelRange start (count + 1) = ⟨start⟩ :: labelRange (start + 1) count := rfl

theorem labelRange_add (start first second : Nat) :
    labelRange start (first + second) =
      labelRange start first ++ labelRange (start + first) second := by
  rw [labelRange, labelRange, labelRange, ← List.map_append,
    List.range'_append_1]

@[simp]
theorem length_labelRange (start count : Nat) :
    (labelRange start count).length = count := by
  simp [labelRange]

theorem mem_labelRange {start count : Nat} {label : Label} :
    label ∈ labelRange start count ↔
      start ≤ label.number ∧ label.number < start + count := by
  cases label with
  | mk number =>
      simp [labelRange]

theorem nodup_labelRange (start count : Nat) :
    (labelRange start count).Nodup := by
  induction count generalizing start with
  | zero =>
      simp
  | succ count inductionHypothesis =>
      rw [labelRange_succ, List.nodup_cons]
      refine ⟨?_, inductionHypothesis (start + 1)⟩
      rw [mem_labelRange]
      exact fun within => Nat.not_succ_le_self start within.1

namespace Stmt

/-! ## Code of each statement -/

section Equations

variable (supply : Supply)

theorem lower_assign (target : String) (value : Expr) :
    (Stmt.assign target value).lower supply =
      let stored := value.lower (.into (.word target)) supply.temps
      (emitAll stored.code, { supply with temps := stored.temps }) := by
  rw [lower]

theorem lower_store (cell : String) (index value : Expr) :
    (Stmt.store cell index value).lower supply =
      let stored := value.lower .anywhere supply.temps
      let place := index.lower .anywhere stored.temps
      (emitAll
          (stored.code ++ (place.code ++
            [.write stored.operand (.word cell) place.operand])),
        { supply with temps := place.temps }) := by
  rw [lower]

theorem lower_ifThen (condition : Expr) (thenBranch : Stmt) :
    (Stmt.ifThen condition thenBranch).lower supply =
      let test := condition.lowerCondition ⟨supply.labels⟩ true supply.temps
      let branch := thenBranch.lower ⟨supply.labels + 1, test.2⟩
      ([.create] ++ (emitAll test.1 ++
          (branch.1 ++ [.place ⟨supply.labels⟩])),
        branch.2) := by
  rw [lower]

theorem lower_ifElse (condition : Expr) (thenBranch elseBranch : Stmt) :
    (Stmt.ifElse condition thenBranch elseBranch).lower supply =
      let test := condition.lowerCondition ⟨supply.labels⟩ true supply.temps
      let first := thenBranch.lower ⟨supply.labels + 2, test.2⟩
      let second := elseBranch.lower first.2
      ([.create, .create] ++ (emitAll test.1 ++ (first.1 ++
          ([.emit (.jump ⟨supply.labels + 1⟩ .always),
              .place ⟨supply.labels⟩] ++
            (second.1 ++ [.place ⟨supply.labels + 1⟩])))),
        second.2) := by
  rw [lower]

theorem lower_loop (home exit : Label) (condition : Expr) (body : Stmt) :
    (Stmt.loop home exit condition body).lower supply =
      let test := condition.lowerCondition exit true supply.temps
      let repeated := body.lower { supply with temps := test.2 }
      ([.place home] ++ (emitAll test.1 ++ (repeated.1 ++
          [.emit (.jump home .always), .place exit])),
        repeated.2) := by
  rw [lower]

def lowerResult (function : String) (temps : Nat) :
    Option Expr → List Instruction × Nat
  | none => ([], temps)
  | some value =>
      let stored := value.lower (.into (.result function)) temps
      (stored.code, stored.temps)

theorem lower_ret (function : String) (value : Option Expr) :
    (Stmt.ret function value).lower supply =
      let result := lowerResult function supply.temps value
      (emitAll (result.1 ++ [.set .counter (.resume function)]),
        { supply with temps := result.2 }) := by
  cases value <;> rw [lower, lowerResult]

theorem lower_jump (target : Label) :
    (Stmt.jump target).lower supply =
      ([.emit (.jump target .always)], supply) := by
  rw [lower]

theorem lower_raw (text : String) :
    (Stmt.raw text).lower supply = ([.emit (.raw text)], supply) := by
  rw [lower]

theorem lower_block (body : List Stmt) :
    (Stmt.block body).lower supply = lowerAll supply body := by
  rw [lower]

theorem lower_empty : Stmt.empty.lower supply = ([], supply) := by
  rw [lower]

theorem lowerAll_nil : lowerAll supply [] = ([], supply) := by
  rw [lowerAll]

theorem lowerAll_cons (first : Stmt) (others : List Stmt) :
    lowerAll supply (first :: others) =
      let code := first.lower supply
      let rest := lowerAll code.2 others
      (code.1 ++ rest.1, rest.2) := by
  rw [lowerAll]

end Equations

/-! ## Addresses of each statement -/

section Addresses

variable {supply : Supply} {assembly : Assembly} {start : Nat}

theorem carries_ifThen
    {condition : Expr} {thenBranch : Stmt}
    (carries :
      assembly.Carries start ((Stmt.ifThen condition thenBranch).lower supply).1) :
    let test := condition.lowerCondition ⟨supply.labels⟩ true supply.temps
    let first := thenBranch.lower ⟨supply.labels + 1, test.2⟩
    ∃ branch behind,
      branch = start + test.1.length ∧ behind = branch + width first.1 ∧
        start + width ((Stmt.ifThen condition thenBranch).lower supply).1 =
          behind ∧
        assembly.Carries start (emitAll test.1) ∧
        assembly.Carries branch first.1 ∧
        assembly.labels.address? ⟨supply.labels⟩ = some behind := by
  intro test first
  simp only [lower_ifThen, List.singleton_append, Assembly.Carries,
    Assembly.carries_append, width_emitAll, and_true] at carries
  refine ⟨_, _, rfl, rfl, ?_, carries⟩
  simp only [lower_ifThen, List.singleton_append, width_create, width_append,
    width_emitAll, width_place, width_nil, Nat.add_zero, Nat.add_assoc, test,
    first]

theorem carries_ifElse
    {condition : Expr} {thenBranch elseBranch : Stmt}
    (carries :
      assembly.Carries start
        ((Stmt.ifElse condition thenBranch elseBranch).lower supply).1) :
    let test := condition.lowerCondition ⟨supply.labels⟩ true supply.temps
    let first := thenBranch.lower ⟨supply.labels + 2, test.2⟩
    let second := elseBranch.lower first.2
    ∃ branch between behind,
      branch = start + test.1.length ∧ between = branch + width first.1 ∧
        behind = between + 1 + width second.1 ∧
        start +
            width
              ((Stmt.ifElse condition thenBranch elseBranch).lower supply).1 =
          behind ∧
        assembly.Carries start (emitAll test.1) ∧
        assembly.Carries branch first.1 ∧
        assembly.code[between]? =
          some (.jump ⟨supply.labels + 1⟩ .always) ∧
        assembly.labels.address? ⟨supply.labels⟩ = some (between + 1) ∧
        assembly.Carries (between + 1) second.1 ∧
        assembly.labels.address? ⟨supply.labels + 1⟩ = some behind := by
  intro test first second
  simp only [lower_ifElse, List.cons_append, List.nil_append,
    Assembly.Carries, Assembly.carries_append, width_emitAll,
    and_true] at carries
  refine ⟨_, _, _, rfl, rfl, rfl, ?_, carries⟩
  simp only [lower_ifElse, List.cons_append, List.nil_append, width_create,
    width_append, width_emitAll, width_emit, width_place, width_nil, test,
    first, second]
  omega

theorem carries_loop
    {home exit : Label} {condition : Expr} {body : Stmt}
    (carries :
      assembly.Carries start
        ((Stmt.loop home exit condition body).lower supply).1) :
    let test := condition.lowerCondition exit true supply.temps
    let repeated := body.lower { supply with temps := test.2 }
    ∃ inside back,
      inside = start + test.1.length ∧ back = inside + width repeated.1 ∧
        start + width ((Stmt.loop home exit condition body).lower supply).1 =
          back + 1 ∧
        assembly.labels.address? home = some start ∧
        assembly.Carries start (emitAll test.1) ∧
        assembly.Carries inside repeated.1 ∧
        assembly.code[back]? = some (.jump home .always) ∧
        assembly.labels.address? exit = some (back + 1) := by
  intro test repeated
  simp only [lower_loop, List.singleton_append, Assembly.Carries,
    Assembly.carries_append, width_emitAll, and_true] at carries
  refine ⟨_, _, rfl, rfl, ?_, carries⟩
  simp only [lower_loop, List.singleton_append, width_append, width_emitAll,
    width_emit, width_place, width_nil, test, repeated]
  omega

theorem carries_ret
    {function : String} {value : Option Expr}
    (carries :
      assembly.Carries start ((Stmt.ret function value).lower supply).1) :
    let result := lowerResult function supply.temps value
    ∃ last,
      last = start + result.1.length ∧
        start + width ((Stmt.ret function value).lower supply).1 = last + 1 ∧
        assembly.Carries start (emitAll result.1) ∧
        assembly.code[last]? = some (.set .counter (.resume function)) := by
  intro result
  rw [lower_ret, Assembly.carries_emitAll_append] at carries
  refine ⟨_, rfl, ?_, carries.1, carries.2.1⟩
  simp only [lower_ret, width_emitAll, List.length_append,
    List.length_singleton, Nat.add_assoc, result]

theorem carries_cons
    {first : Stmt} {others : List Stmt}
    (carries : assembly.Carries start (lowerAll supply (first :: others)).1) :
    let code := first.lower supply
    ∃ middle,
      middle = start + width code.1 ∧
        start + width (lowerAll supply (first :: others)).1 =
          middle + width (lowerAll code.2 others).1 ∧
        assembly.Carries start code.1 ∧
        assembly.Carries middle (lowerAll code.2 others).1 := by
  intro code
  rw [lowerAll_cons, Assembly.carries_append] at carries
  refine ⟨_, rfl, ?_, carries⟩
  simp only [lowerAll_cons, width_append, Nat.add_assoc, code]

end Addresses

/-! ## Labels are created in order -/

mutual

theorem creations_lower :
    ∀ (stmt : Stmt) (supply : Supply),
      creations (stmt.lower supply).1 = stmt.branchLabels
  | .assign target value, supply => by
      simp [lower_assign, branchLabels]
  | .store cell index value, supply => by
      simp [lower_store, branchLabels]
  | .ifThen condition thenBranch, supply => by
      simp only [lower_ifThen, branchLabels, creations_lower thenBranch,
        creations_append, creations_emitAll, List.singleton_append,
        creations_create, creations_place, creations_nil]
      omega
  | .ifElse condition thenBranch elseBranch, supply => by
      simp only [lower_ifElse, branchLabels, creations_lower thenBranch,
        creations_lower elseBranch, creations_append, creations_emitAll,
        List.cons_append, List.nil_append, creations_create, creations_place,
        creations_emit, creations_nil]
      omega
  | .loop home exit condition body, supply => by
      simp [lower_loop, branchLabels, creations_lower body]
  | .ret function value, supply => by
      simp [lower_ret, branchLabels]
  | .jump target, supply => by
      simp [lower_jump, branchLabels]
  | .raw text, supply => by
      simp [lower_raw, branchLabels]
  | .block body, supply => by
      rw [lower_block, branchLabels]
      exact creations_lowerAll body supply
  | .empty, supply => by
      simp [lower_empty, branchLabels]

theorem creations_lowerAll :
    ∀ (body : List Stmt) (supply : Supply),
      creations (lowerAll supply body).1 = branchLabelsAll body
  | [], supply => by
      simp [lowerAll_nil, branchLabelsAll]
  | first :: others, supply => by
      simp only [lowerAll_cons, branchLabelsAll, creations_lower first,
        creations_lowerAll others, creations_append]

end

mutual

theorem labels_lower :
    ∀ (stmt : Stmt) (supply : Supply),
      (stmt.lower supply).2.labels = supply.labels + stmt.branchLabels
  | .assign target value, supply => by
      simp [lower_assign, branchLabels]
  | .store cell index value, supply => by
      simp [lower_store, branchLabels]
  | .ifThen condition thenBranch, supply => by
      simp only [lower_ifThen, branchLabels, labels_lower thenBranch]
      omega
  | .ifElse condition thenBranch elseBranch, supply => by
      simp only [lower_ifElse, branchLabels, labels_lower thenBranch,
        labels_lower elseBranch]
      omega
  | .loop home exit condition body, supply => by
      simp [lower_loop, branchLabels, labels_lower body]
  | .ret function value, supply => by
      simp [lower_ret, branchLabels]
  | .jump target, supply => by
      simp [lower_jump, branchLabels]
  | .raw text, supply => by
      simp [lower_raw, branchLabels]
  | .block body, supply => by
      rw [lower_block, branchLabels]
      exact labels_lowerAll body supply
  | .empty, supply => by
      simp [lower_empty, branchLabels]

theorem labels_lowerAll :
    ∀ (body : List Stmt) (supply : Supply),
      (lowerAll supply body).2.labels = supply.labels + branchLabelsAll body
  | [], supply => by
      simp [lowerAll_nil, branchLabelsAll]
  | first :: others, supply => by
      simp only [lowerAll_cons, branchLabelsAll, labels_lower first,
        labels_lowerAll others, Nat.add_assoc]

end

/-! ## Temporaries are taken in order -/

mutual

theorem temps_le_lower :
    ∀ (stmt : Stmt) (supply : Supply),
      supply.temps ≤ (stmt.lower supply).2.temps
  | .assign target value, supply => by
      rw [lower_assign]
      exact Expr.temps_le_lower value _ supply.temps
  | .store cell index value, supply => by
      rw [lower_store]
      exact
        Nat.le_trans (Expr.temps_le_lower value _ supply.temps)
          (Expr.temps_le_lower index _ _)
  | .ifThen condition thenBranch, supply => by
      rw [lower_ifThen]
      exact
        Nat.le_trans (Expr.temps_le_lowerCondition condition _ true _)
          (temps_le_lower thenBranch ⟨supply.labels + 1, _⟩)
  | .ifElse condition thenBranch elseBranch, supply => by
      rw [lower_ifElse]
      exact
        Nat.le_trans (Expr.temps_le_lowerCondition condition _ true _)
          (Nat.le_trans (temps_le_lower thenBranch ⟨supply.labels + 2, _⟩)
            (temps_le_lower elseBranch _))
  | .loop home exit condition body, supply => by
      rw [lower_loop]
      exact
        Nat.le_trans (Expr.temps_le_lowerCondition condition exit true _)
          (temps_le_lower body ⟨supply.labels, _⟩)
  | .ret function none, supply =>
      Nat.le_of_eq (by simp [lower_ret, lowerResult])
  | .ret function (some value), supply => by
      rw [lower_ret]
      exact Expr.temps_le_lower value _ supply.temps
  | .jump target, supply =>
      Nat.le_of_eq (by rw [lower_jump])
  | .raw text, supply =>
      Nat.le_of_eq (by rw [lower_raw])
  | .block body, supply => by
      rw [lower_block]
      exact temps_le_lowerAll body supply
  | .empty, supply =>
      Nat.le_of_eq (by rw [lower_empty])

theorem temps_le_lowerAll :
    ∀ (body : List Stmt) (supply : Supply),
      supply.temps ≤ (lowerAll supply body).2.temps
  | [], supply =>
      Nat.le_of_eq (by rw [lowerAll_nil])
  | first :: others, supply => by
      rw [lowerAll_cons]
      exact
        Nat.le_trans (temps_le_lower first supply)
          (temps_le_lowerAll others _)

end

/-! ## Every label is placed where it belongs -/

mutual

/-- The code of a statement places the labels of its loops and the labels that it
creates. -/
theorem count_placed_lower :
    ∀ (stmt : Stmt) (supply : Supply) (label : Label),
      (placed (stmt.lower supply).1).count label =
        stmt.loopSites.count label +
          (labelRange supply.labels stmt.branchLabels).count label
  | .assign target value, supply, label => by
      simp [lower_assign, loopSites, branchLabels]
  | .store cell index value, supply, label => by
      simp [lower_store, loopSites, branchLabels]
  | .ifThen condition thenBranch, supply, label => by
      have branch :=
        count_placed_lower thenBranch
          ⟨supply.labels + 1,
            (condition.lowerCondition ⟨supply.labels⟩ true supply.temps).2⟩
          label
      simp only [lower_ifThen, loopSites, branchLabels, placed_append,
        placed_emitAll, placed_create, placed_place, placed_nil,
        List.singleton_append, List.nil_append, List.count_append,
        List.count_cons, List.count_nil, Nat.zero_add, labelRange_succ,
        branch]
      omega
  | .ifElse condition thenBranch elseBranch, supply, label => by
      have first :=
        count_placed_lower thenBranch
          ⟨supply.labels + 2,
            (condition.lowerCondition ⟨supply.labels⟩ true supply.temps).2⟩
          label
      have second :=
        count_placed_lower elseBranch
          (thenBranch.lower
            ⟨supply.labels + 2,
              (condition.lowerCondition
                ⟨supply.labels⟩ true supply.temps).2⟩).2
          label
      rw [labels_lower] at second
      simp only [lower_ifElse, loopSites, branchLabels, placed_append,
        placed_emitAll, placed_create, placed_place, placed_emit, placed_nil,
        List.cons_append, List.nil_append, List.count_append, List.count_cons,
        List.count_nil, Nat.zero_add, labelRange_add, labelRange_succ, first,
        second]
      simp only [Nat.add_assoc, Nat.reduceAdd]
      omega
  | .loop home exit condition body, supply, label => by
      have repeated :=
        count_placed_lower body
          { supply with
            temps := (condition.lowerCondition exit true supply.temps).2 }
          label
      simp only [lower_loop, loopSites, branchLabels, placed_append,
        placed_emitAll, placed_place, placed_emit, placed_nil,
        List.singleton_append, List.nil_append, List.count_append,
        List.count_cons, List.count_nil, Nat.zero_add, repeated]
      omega
  | .ret function value, supply, label => by
      simp [lower_ret, loopSites, branchLabels]
  | .jump target, supply, label => by
      simp [lower_jump, loopSites, branchLabels]
  | .raw text, supply, label => by
      simp [lower_raw, loopSites, branchLabels]
  | .block body, supply, label => by
      rw [lower_block, loopSites, branchLabels]
      exact count_placed_lowerAll body supply label
  | .empty, supply, label => by
      simp [lower_empty, loopSites, branchLabels]

theorem count_placed_lowerAll :
    ∀ (body : List Stmt) (supply : Supply) (label : Label),
      (placed (lowerAll supply body).1).count label =
        (loopSitesAll body).count label +
          (labelRange supply.labels (branchLabelsAll body)).count label
  | [], supply, label => by
      simp [lowerAll_nil, loopSitesAll, branchLabelsAll]
  | first :: others, supply, label => by
      have head := count_placed_lower first supply label
      have tail := count_placed_lowerAll others (first.lower supply).2 label
      rw [labels_lower] at tail
      simp only [lowerAll_cons, loopSitesAll, branchLabelsAll, placed_append,
        labelRange_add, List.count_append, head, tail]
      omega

end

mutual

/-- A label exists when it is placed, if the labels of loops exist from the
start. -/
theorem placeable_lower :
    ∀ (stmt : Stmt) (supply : Supply),
      (∀ label ∈ stmt.loopSites, label.number < supply.labels) →
        Placeable supply.labels (stmt.lower supply).1
  | .assign target value, supply, _ => by
      simp [lower_assign]
  | .store cell index value, supply, _ => by
      simp [lower_store]
  | .ifThen condition thenBranch, supply, exist => by
      rw [loopSites] at exist
      have branch :=
        placeable_lower thenBranch
          ⟨supply.labels + 1,
            (condition.lowerCondition ⟨supply.labels⟩ true supply.temps).2⟩
          fun label member => Nat.lt_succ_of_lt (exist label member)
      rw [lower_ifThen]
      simp only [List.singleton_append, Placeable, placeable_append,
        placeable_emitAll, creations_emitAll, Nat.add_zero, and_true, true_and]
      exact ⟨branch, by omega⟩
  | .ifElse condition thenBranch elseBranch, supply, exist => by
      rw [loopSites, List.forall_mem_append] at exist
      have first :=
        placeable_lower thenBranch
          ⟨supply.labels + 2,
            (condition.lowerCondition ⟨supply.labels⟩ true supply.temps).2⟩
          fun label member => Nat.lt_add_right 2 (exist.1 label member)
      have second :=
        placeable_lower elseBranch
          (thenBranch.lower
            ⟨supply.labels + 2,
              (condition.lowerCondition
                ⟨supply.labels⟩ true supply.temps).2⟩).2
          fun label member => by
            have early := exist.2 label member
            rw [labels_lower]
            show label.number < supply.labels + 2 + _
            omega
      rw [labels_lower] at second
      rw [lower_ifElse]
      simp only [List.cons_append, List.nil_append, Placeable,
        placeable_append, placeable_emitAll, creations_emitAll,
        creations_lower, Nat.add_zero, and_true, true_and]
      exact ⟨first, by omega, second, by omega⟩
  | .loop home exit condition body, supply, exist => by
      rw [loopSites, List.forall_mem_cons, List.forall_mem_cons] at exist
      have repeated :=
        placeable_lower body
          { supply with
            temps := (condition.lowerCondition exit true supply.temps).2 }
          exist.2.2
      rw [lower_loop]
      simp only [List.singleton_append, Placeable, placeable_append,
        placeable_emitAll, creations_emitAll, Nat.add_zero, and_true, true_and]
      exact ⟨exist.1, repeated, Nat.lt_add_right _ exist.2.1⟩
  | .ret function value, supply, _ => by
      simp [lower_ret]
  | .jump target, supply, _ => by
      simp [lower_jump, Placeable]
  | .raw text, supply, _ => by
      simp [lower_raw, Placeable]
  | .block body, supply, exist => by
      rw [lower_block]
      rw [loopSites] at exist
      exact placeable_lowerAll body supply exist
  | .empty, supply, _ => by
      simp [lower_empty, Placeable]

theorem placeable_lowerAll :
    ∀ (body : List Stmt) (supply : Supply),
      (∀ label ∈ loopSitesAll body, label.number < supply.labels) →
        Placeable supply.labels (lowerAll supply body).1
  | [], supply, _ => by
      simp [lowerAll_nil, Placeable]
  | first :: others, supply, exist => by
      rw [loopSitesAll, List.forall_mem_append] at exist
      have head := placeable_lower first supply exist.1
      have tail :=
        placeable_lowerAll others (first.lower supply).2
          fun label member => by
            rw [labels_lower]
            exact Nat.lt_add_right _ (exist.2 label member)
      rw [labels_lower, ← creations_lower first supply] at tail
      rw [lowerAll_cons]
      exact placeable_append.mpr ⟨head, tail⟩

end

variable {parts : Parts}

mutual

/-- A statement that was read holds the labels that reading it created. -/
theorem loopSites_eq_labelRange :
    ∀ (stmt : Stmt) (around : Option LoopLabels) (created : Nat),
      stmt.Formed parts around created →
        stmt.loopSites = labelRange created stmt.loopLabels
  | .ifThen condition thenBranch, around, created, formed => by
      rw [loopSites, loopLabels]
      exact loopSites_eq_labelRange thenBranch around created formed.2
  | .ifElse condition thenBranch elseBranch, around, created, formed => by
      rw [loopSites, loopLabels, labelRange_add,
        loopSites_eq_labelRange thenBranch around created formed.2.1,
        loopSites_eq_labelRange elseBranch around _ formed.2.2]
  | .loop home exit condition body, around, created, formed => by
      obtain ⟨rfl, rfl, _, bodyFormed⟩ := formed
      rw [loopSites, loopLabels, labelRange_succ, labelRange_succ,
        loopSites_eq_labelRange body _ (created + 2) bodyFormed]
  | .block body, around, created, formed => by
      rw [loopSites, loopLabels]
      exact loopSitesAll_eq_labelRange body around created formed
  | .assign .., _, _, _ | .store .., _, _, _ | .ret .., _, _, _
  | .jump _, _, _, _ | .raw _, _, _, _ | .empty, _, _, _ => rfl

/-- Statements that were read hold the labels that reading them created. -/
theorem loopSitesAll_eq_labelRange :
    ∀ (body : List Stmt) (around : Option LoopLabels) (created : Nat),
      FormedAll parts around created body →
        loopSitesAll body = labelRange created (loopLabelsAll body)
  | [], _, _, _ => rfl
  | first :: others, around, created, formed => by
      rw [loopSitesAll, loopLabelsAll, labelRange_add,
        loopSites_eq_labelRange first around created formed.1,
        loopSitesAll_eq_labelRange others around _ formed.2]

end

/-! ## Properties of statement code -/

/-- A property of code that passes from parts to the whole, and holds of the code of
each part of a statement of the right form, if jumps go to known labels. -/
structure Composes
    (parts : Parts) (known : Label → Prop)
    (holds : List Instruction → Prop) : Prop where
  nil : holds []
  append : ∀ {first second},
    holds first → holds second → holds (first ++ second)
  assign : ∀ {target value}, parts.name target → parts.value value →
    ∀ temps, holds (value.lower (.into (.word target)) temps).code
  operand : ∀ {value}, parts.value value →
    ∀ temps, holds (value.lower .anywhere temps).code
  write : ∀ {cell index value},
    parts.name cell → parts.value index → parts.value value →
      ∀ first second,
        holds
          [.write (value.lower .anywhere first).operand (.word cell)
            (index.lower .anywhere second).operand]
  test : ∀ {condition target}, parts.condition condition → known target →
    ∀ temps, holds (condition.lowerCondition target true temps).1
  result : ∀ {function value},
    parts.function = some function → parts.value value →
      ∀ temps, holds (value.lower (.into (.result function)) temps).code
  leave : ∀ {function}, parts.function = some function →
    holds [.set .counter (.resume function)]
  jump : ∀ {target}, known target → holds [.jump target .always]
  raw : ∀ {text}, parts.raw text → holds [.raw text]

mutual

theorem holds_lower
    {known : Label → Prop} {holds : List Instruction → Prop}
    (composes : Composes parts known holds) :
    ∀ (stmt : Stmt) (around : Option LoopLabels) (created : Nat)
      (supply : Supply),
      stmt.Formed parts around created →
        (∀ label ∈ placed (stmt.lower supply).1, known label) →
          (∀ labels ∈ around, known labels.home ∧ known labels.exit) →
            holds (instructions (stmt.lower supply).1)
  | .assign target value, around, created, supply, formed, _, _ => by
      rw [lower_assign, instructions_emitAll]
      exact composes.assign formed.1 formed.2 supply.temps
  | .store cell index value, around, created, supply, formed, _, _ => by
      have stored := composes.operand formed.2.2 supply.temps
      have place :=
        composes.operand formed.2.1
          (value.lower .anywhere supply.temps).temps
      have write := composes.write formed.1 formed.2.1 formed.2.2
      rw [lower_store, instructions_emitAll]
      exact
        composes.append stored (composes.append place (write _ _))
  | .ifThen condition thenBranch, around, created, supply, formed, labels,
      loops => by
      simp only [lower_ifThen, placed_append, placed_emitAll, placed_create,
        placed_place, placed_nil, List.singleton_append, List.nil_append,
        List.forall_mem_append, List.forall_mem_singleton] at labels
      have test := composes.test formed.1 labels.2 supply.temps
      have branch :=
        holds_lower composes thenBranch around created _ formed.2 labels.1
          loops
      rw [lower_ifThen]
      simp only [List.singleton_append, instructions_create,
        instructions_append, instructions_emitAll, instructions_place,
        instructions_nil, List.append_nil]
      exact composes.append test branch
  | .ifElse condition thenBranch elseBranch, around, created, supply, formed,
      labels, loops => by
      simp only [lower_ifElse, placed_append, placed_emitAll, placed_create,
        placed_emit, placed_place, placed_nil, List.cons_append,
        List.nil_append, List.forall_mem_append,
        List.forall_mem_cons] at labels
      have test := composes.test formed.1 labels.2.1 supply.temps
      have first :=
        holds_lower composes thenBranch around created _ formed.2.1 labels.1
          loops
      have second :=
        holds_lower composes elseBranch around _ _ formed.2.2 labels.2.2.1
          loops
      rw [lower_ifElse]
      simp only [List.cons_append, List.nil_append, instructions_create,
        instructions_append, instructions_emitAll, instructions_emit,
        instructions_place, instructions_nil, List.append_nil]
      exact
        composes.append test
          (composes.append first
            (composes.append (composes.jump labels.2.2.2.1) second))
  | .loop home exit condition body, around, created, supply, formed, labels,
      loops => by
      obtain ⟨rfl, rfl, conditionRead, bodyFormed⟩ := formed
      simp only [lower_loop, placed_append, placed_emitAll, placed_emit,
        placed_place, placed_nil, List.singleton_append, List.nil_append,
        List.forall_mem_append, List.forall_mem_cons] at labels
      have test := composes.test conditionRead labels.2.2.1 supply.temps
      have inner :
          ∀ own ∈ some (LoopLabels.mk ⟨created⟩ ⟨created + 1⟩),
            known own.home ∧ known own.exit := by
        simpa using And.intro labels.1 labels.2.2.1
      have repeated :=
        holds_lower composes body _ (created + 2) _ bodyFormed labels.2.1
          inner
      rw [lower_loop]
      simp only [List.singleton_append, instructions_append,
        instructions_emitAll, instructions_emit, instructions_place,
        instructions_nil]
      exact
        composes.append test
          (composes.append repeated (composes.jump labels.1))
  | .ret function none, around, created, supply, formed, _, _ => by
      rw [lower_ret, instructions_emitAll]
      exact composes.leave formed.1
  | .ret function (some value), around, created, supply, formed, _, _ => by
      have result :=
        composes.result formed.1 (formed.2 value rfl) supply.temps
      rw [lower_ret, instructions_emitAll]
      exact composes.append result (composes.leave formed.1)
  | .jump target, around, created, supply, formed, _, loops => by
      obtain ⟨labels, inside, own⟩ := formed
      have knownLabels := loops labels inside
      rw [lower_jump]
      rcases own with rfl | rfl
      · exact composes.jump knownLabels.1
      · exact composes.jump knownLabels.2
  | .raw text, around, created, supply, formed, _, _ => by
      rw [lower_raw]
      exact composes.raw formed
  | .block body, around, created, supply, formed, labels, loops => by
      rw [lower_block] at labels ⊢
      exact
        holds_lowerAll composes body around created supply formed labels loops
  | .empty, around, created, supply, _, _, _ => by
      rw [lower_empty]
      exact composes.nil

theorem holds_lowerAll
    {known : Label → Prop} {holds : List Instruction → Prop}
    (composes : Composes parts known holds) :
    ∀ (body : List Stmt) (around : Option LoopLabels) (created : Nat)
      (supply : Supply),
      FormedAll parts around created body →
        (∀ label ∈ placed (lowerAll supply body).1, known label) →
          (∀ labels ∈ around, known labels.home ∧ known labels.exit) →
            holds (instructions (lowerAll supply body).1)
  | [], around, created, supply, _, _, _ => by
      rw [lowerAll_nil]
      exact composes.nil
  | first :: others, around, created, supply, formed, labels, loops => by
      simp only [lowerAll_cons, placed_append,
        List.forall_mem_append] at labels
      have head :=
        holds_lower composes first around created supply formed.1 labels.1
          loops
      have tail :=
        holds_lowerAll composes others around _ _ formed.2 labels.2 loops
      rw [lowerAll_cons, instructions_append]
      exact composes.append head tail

end

end Stmt

end FlatCode
