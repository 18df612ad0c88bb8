import FlatCode.Proofs.Lowering.Program
import Mathlib.Data.List.Perm.Subperm

/-!
# Which programs have a listing

A program need not come from a text: its labels can be named in any way, and some
of them can have an address from the start.  Whether its code can be listed then
depends on its labels alone.

* The code places the labels of loops and functions and the labels that it creates
  for conditionals.  The latter get the next free numbers, so a loop or a function
  that names one of them competes with a conditional for it, and one of the two
  fails.
* The code jumps to the labels of its loops and conditionals, to the targets of
  jump statements and to the homes of called functions.  A jump may well name a
  label that is only created for a conditional, since labels are looked up when
  all of them are placed.

So a program has a listing exactly if its loops and functions name the labels
without an address, each of them once, and its jumps and calls stay below the
number of labels at the end.
-/

namespace FlatCode

open Entry

/-! ## The labels with an address -/

namespace LabelTable

variable {table : LabelTable} {label : Label}

def placedLabels (table : LabelTable) : List Label :=
  (labelRange 0 table.created).filter fun label =>
    (table.address? label).isSome

theorem number_lt_of_address?
    {address : Nat} (found : table.address? label = some address) :
    label.number < table.created := by
  unfold address? at found
  by_cases existing : label.number < table.addresses.size
  · exact existing
  · rw [Array.getElem?_eq_none (Nat.le_of_not_lt existing)] at found
    cases found

theorem mem_placedLabels :
    label ∈ table.placedLabels ↔
      ∃ address, table.address? label = some address := by
  unfold placedLabels
  rw [List.mem_filter, mem_labelRange, Option.isSome_iff_exists]
  constructor
  · intro placed
    exact placed.2
  · intro placed
    obtain ⟨address, found⟩ := placed
    have existing := number_lt_of_address? found
    exact ⟨⟨Nat.zero_le _, by omega⟩, address, found⟩

theorem nodup_placedLabels (table : LabelTable) : table.placedLabels.Nodup :=
  (nodup_labelRange 0 table.created).filter _

theorem length_placedLabels (table : LabelTable) :
    table.placedLabels.length = table.placed := by
  have slots :
      table.addresses.toList =
        (labelRange 0 table.created).map table.address? := by
    apply List.ext_getElem
    · simp [created]
    · intro index inside _
      have bound : index < table.addresses.size := by simpa using inside
      simp [labelRange, address?, Array.getElem?_eq_getElem bound]
  unfold placedLabels placed
  rw [← List.countP_eq_length_filter, ← Array.countP_toList, slots,
    List.countP_map]
  rfl

/-- If as many labels have an address as exist, then all of them have one. -/
theorem exists_address_of_complete
    (complete : table.placed = table.created)
    (existing : label.number < table.created) :
    ∃ address, table.address? label = some address := by
  have all :
      ∀ other ∈ labelRange 0 table.created,
        (table.address? other).isSome = true := by
    apply List.filter_eq_self.mp
    apply List.filter_sublist.eq_of_length
    calc
      table.placedLabels.length = table.created := by
        rw [length_placedLabels, complete]
      _ = (labelRange 0 table.created).length := by
        rw [length_labelRange]
  apply Option.isSome_iff_exists.mp
  apply all label
  rw [mem_labelRange]
  exact ⟨Nat.zero_le _, by omega⟩

end LabelTable

/-! ## Where code jumps to -/

/-- The label that an instruction can jump to. -/
def Instruction.goal? : Instruction → Option Label
  | .jump target _ => some target
  | .set .. | .op .. | .read .. | .write .. | .raw _ | .halt | .noop => none

def goals (code : List Instruction) : List Label :=
  code.filterMap Instruction.goal?

section Goals

variable {label : Label} (first second : List Instruction)

@[simp]
theorem goals_nil : goals [] = [] := rfl

@[simp]
theorem goals_append : goals (first ++ second) = goals first ++ goals second :=
  List.filterMap_append

@[simp]
theorem goals_jump (target : Label) (condition : Condition) :
    goals (.jump target condition :: second) = target :: goals second := rfl

theorem mem_goals {code : List Instruction} :
    label ∈ goals code ↔ ∃ condition, Instruction.jump label condition ∈ code := by
  unfold goals
  rw [List.mem_filterMap]
  constructor
  · intro found
    obtain ⟨instruction, member, aimed⟩ := found
    cases instruction with
    | jump target condition =>
        cases aimed
        exact ⟨condition, member⟩
    | set | op | read | write | raw | halt | noop =>
        cases aimed
  · intro found
    obtain ⟨condition, member⟩ := found
    exact ⟨.jump label condition, member, rfl⟩

theorem goals_storing
    (target : Operand) {instruction : Instruction}
    (straight : instruction.goal? = none) :
    goals (storing target instruction) = [] := by
  unfold storing
  by_cases discarded : target = .discard
  · rw [if_pos discarded]
    rfl
  · rw [if_neg discarded, goals, List.filterMap_cons_none straight]
    rfl

theorem goals_passArguments (callee : Callee) (values : List Operand) :
    goals (callee.passArguments values) = [] := by
  unfold goals
  rw [List.filterMap_eq_nil_iff]
  intro instruction member
  obtain ⟨index, inside, rfl⟩ := List.getElem_of_mem member
  simp [Callee.passArguments, Instruction.goal?]

theorem goals_enter (callee : Callee) : goals callee.enter = [callee.home] := rfl

end Goals

namespace Expr

mutual

/-- The homes of the functions that an expression calls. -/
@[simp]
def homes : Expr → List Label
  | .atom _ _ => []
  | .binary _ _ lhs rhs => lhs.homes ++ rhs.homes
  | .call _ callee args => homesAll args ++ [callee.home]
  | .load _ _ index => index.homes

@[simp]
def homesAll : List Expr → List Label
  | [] => []
  | first :: others => first.homes ++ homesAll others

end

theorem goals_anywhere
    {expr : Expr} (temps : Nat)
    (called : ∀ target temps,
      goals (expr.lower (.into target) temps).code = expr.homes) :
    goals (expr.lower .anywhere temps).code = expr.homes := by
  by_cases atom : expr.IsAtom
  · cases expr with
    | atom truth text =>
        rw [lower_anywhere_atom]
        rfl
    | binary | call | load =>
        exact atom.elim
  · rw [lower_anywhere_eq_into atom]
    exact called _ _

theorem goals_lowerArguments
    {args : List Expr} (temps : Nat)
    (called : ∀ arg ∈ args, ∀ target temps,
      goals (arg.lower (.into target) temps).code = arg.homes) :
    goals (lowerArguments temps args).code = homesAll args := by
  induction args generalizing temps with
  | nil =>
      simp [lowerArguments]
  | cons first others inductionHypothesis =>
      rw [List.forall_mem_cons] at called
      simp only [lowerArguments, homesAll, goals_append, called.1,
        inductionHypothesis _ called.2]

/-- The code of an expression jumps to the functions that the expression calls. -/
theorem goals_lower_into (expr : Expr) (target : Operand) (temps : Nat) :
    goals (expr.lower (.into target) temps).code = expr.homes := by
  induction expr generalizing target temps with
  | atom truth text =>
      rw [lower_into_atom]
      exact goals_storing target rfl
  | binary truth operator lhs rhs lhsCalled rhsCalled =>
      rw [lower_into_binary]
      simp only [homes, goals_append, goals_anywhere _ lhsCalled,
        goals_anywhere _ rhsCalled]
      rw [goals_storing target rfl, List.append_nil]
  | call truth callee args argsCalled =>
      rw [lower_into_call]
      simp only [homes, goals_append, goals_lowerArguments temps argsCalled,
        goals_passArguments, goals_enter, List.nil_append]
      rw [goals_storing target rfl, List.append_nil]
  | load truth cell index indexCalled =>
      rw [lower_into_load]
      simp only [homes, goals_append, goals_anywhere _ indexCalled]
      rw [goals_storing target rfl, List.append_nil]

theorem goals_lower_anywhere (expr : Expr) (temps : Nat) :
    goals (expr.lower .anywhere temps).code = expr.homes :=
  goals_anywhere temps (goals_lower_into expr)

theorem goals_lowerCondition (expr : Expr) (target : Label) (temps : Nat) :
    goals (expr.lowerCondition target true temps).1 =
      expr.homes ++ [target] := by
  rcases lowerCondition_cases expr target temps with comparison | shape
  · obtain ⟨truth, operator, other, lhs, rhs, rfl, _, shape⟩ := comparison
    rw [shape]
    simp [goals_lower_anywhere]
  · rw [shape]
    simp [goals_lower_anywhere]

end Expr

namespace Stmt

mutual

/-- The targets of the jump statements in a statement, and the homes of the
functions that it calls. -/
def goals : Stmt → List Label
  | .assign _ value => value.homes
  | .store _ index value => value.homes ++ index.homes
  | .ifThen condition thenBranch => condition.homes ++ thenBranch.goals
  | .ifElse condition thenBranch elseBranch =>
      condition.homes ++ (thenBranch.goals ++ elseBranch.goals)
  | .loop _ _ condition body => condition.homes ++ body.goals
  | .ret _ (some value) => value.homes
  | .jump target => [target]
  | .block body => goalsAll body
  | .ret _ none | .raw _ | .empty => []

def goalsAll : List Stmt → List Label
  | [] => []
  | first :: others => first.goals ++ goalsAll others

end

mutual

/-- The code of a statement jumps to its targets and called functions, to the
labels of its loops and to the labels that it creates. -/
theorem mem_goals_lower :
    ∀ (stmt : Stmt) (supply : Supply) (label : Label),
      label ∈ FlatCode.goals (instructions (stmt.lower supply).1) ↔
        label ∈ stmt.goals ∨ label ∈ stmt.loopSites ∨
          label ∈ labelRange supply.labels stmt.branchLabels
  | .assign target value, supply, label => by
      simp [lower_assign, goals, loopSites, branchLabels,
        Expr.goals_lower_into]
  | .store cell index value, supply, label => by
      have write (value cell index : Operand) :
          FlatCode.goals [.write value cell index] = [] := rfl
      simp [lower_store, goals, loopSites, branchLabels,
        Expr.goals_lower_anywhere, write]
  | .ifThen condition thenBranch, supply, label => by
      have branch :=
        mem_goals_lower thenBranch
          ⟨supply.labels + 1,
            (condition.lowerCondition ⟨supply.labels⟩ true supply.temps).2⟩
          label
      simp only [lower_ifThen, goals, loopSites, branchLabels,
        List.singleton_append, instructions_create, instructions_append,
        instructions_emitAll, instructions_place, instructions_nil,
        goals_append, goals_nil, Expr.goals_lowerCondition, labelRange_succ,
        List.mem_append, List.mem_cons, List.not_mem_nil, or_false, branch]
      grind
  | .ifElse condition thenBranch elseBranch, supply, label => by
      have first :=
        mem_goals_lower thenBranch
          ⟨supply.labels + 2,
            (condition.lowerCondition ⟨supply.labels⟩ true supply.temps).2⟩
          label
      have second :=
        mem_goals_lower elseBranch
          (thenBranch.lower
            ⟨supply.labels + 2,
              (condition.lowerCondition
                ⟨supply.labels⟩ true supply.temps).2⟩).2
          label
      rw [labels_lower] at second
      simp only [lower_ifElse, goals, loopSites, branchLabels,
        List.cons_append, List.nil_append, instructions_create,
        instructions_append, instructions_emitAll, instructions_emit,
        instructions_place, instructions_nil, goals_append, goals_jump,
        goals_nil, Expr.goals_lowerCondition, labelRange_succ, labelRange_add,
        List.mem_append, List.mem_cons, List.not_mem_nil, or_false, first,
        second]
      grind
  | .loop home exit condition body, supply, label => by
      have repeated :=
        mem_goals_lower body
          { supply with
            temps := (condition.lowerCondition exit true supply.temps).2 }
          label
      simp only [lower_loop, goals, loopSites, branchLabels,
        List.singleton_append, instructions_append, instructions_emitAll,
        instructions_emit, instructions_place, instructions_nil, goals_append,
        goals_jump, goals_nil, Expr.goals_lowerCondition, List.mem_append,
        List.mem_cons, List.not_mem_nil, or_false, repeated]
      grind
  | .ret function none, supply, label => by
      have leave :
          FlatCode.goals [.set .counter (.resume function)] = [] := rfl
      simp [lower_ret, lowerResult, goals, loopSites, branchLabels, leave]
  | .ret function (some value), supply, label => by
      have leave :
          FlatCode.goals [.set .counter (.resume function)] = [] := rfl
      simp [lower_ret, lowerResult, goals, loopSites, branchLabels,
        Expr.goals_lower_into, leave]
  | .jump target, supply, label => by
      simp [lower_jump, goals, loopSites, branchLabels]
  | .raw text, supply, label => by
      have raw : FlatCode.goals [.raw text] = [] := rfl
      simp [lower_raw, goals, loopSites, branchLabels, raw]
  | .block body, supply, label => by
      rw [lower_block, goals, loopSites, branchLabels]
      exact mem_goals_lowerAll body supply label
  | .empty, supply, label => by
      simp [lower_empty, goals, loopSites, branchLabels]

theorem mem_goals_lowerAll :
    ∀ (body : List Stmt) (supply : Supply) (label : Label),
      label ∈ FlatCode.goals (instructions (lowerAll supply body).1) ↔
        label ∈ goalsAll body ∨ label ∈ loopSitesAll body ∨
          label ∈ labelRange supply.labels (branchLabelsAll body)
  | [], supply, label => by
      simp [lowerAll_nil, goalsAll, loopSitesAll, branchLabelsAll]
  | first :: others, supply, label => by
      have head := mem_goals_lower first supply label
      have tail := mem_goals_lowerAll others (first.lower supply).2 label
      rw [labels_lower] at tail
      simp only [lowerAll_cons, goalsAll, loopSitesAll, branchLabelsAll,
        instructions_append, goals_append, labelRange_add, List.mem_append,
        head, tail]
      grind

end

end Stmt

namespace Function

/-- The code of functions jumps to their targets and called functions, to the
labels of their loops and to the labels that it creates.  Only a call jumps to the
home of a function. -/
theorem mem_goals_lowerAll
    (supply : Supply) (functions : List Function) (label : Label) :
    label ∈ goals (instructions (lowerAll supply functions).1) ↔
      (label ∈ functions.flatMap fun function =>
          Stmt.goalsAll function.body) ∨
        (label ∈ functions.flatMap fun function =>
          Stmt.loopSitesAll function.body) ∨
        label ∈ labelRange supply.labels (branchLabelsAll functions) := by
  induction functions generalizing supply with
  | nil =>
      simp [lowerAll_nil, branchLabelsAll]
  | cons first others inductionHypothesis =>
      have head := Stmt.mem_goals_lowerAll first.body supply label
      have tail := inductionHypothesis (first.lower supply).2
      rw [labels_lower] at tail
      simp only [lowerAll_cons, lower_eq, List.cons_append, branchLabelsAll,
        branchLabels, instructions_place, instructions_append, goals_append,
        labelRange_add, List.flatMap_cons, List.mem_append] at head tail ⊢
      rw [head, tail]
      grind

end Function

namespace Program

variable {program : Program} {label : Label}

/-- The targets of all jump statements of a program, and the homes of all functions
that it calls. -/
def goals (program : Program) : List Label :=
  Stmt.goalsAll program.main ++
    program.functions.flatMap fun function => Stmt.goalsAll function.body

/-- The code of a program jumps to its targets and called functions, to the labels
of its loops and to the labels that it creates. -/
theorem mem_goals_lower (program : Program) (label : Label) :
    label ∈ FlatCode.goals (instructions program.lower) ↔
      label ∈ program.goals ∨
        (label ∈ Stmt.loopSitesAll program.main ∨
          label ∈ program.functions.flatMap fun function =>
            Stmt.loopSitesAll function.body) ∨
        label ∈ labelRange program.labels.created program.branchLabels := by
  have main :=
    Stmt.mem_goals_lowerAll program.main ⟨program.labels.created, 0⟩ label
  have functions :=
    Function.mem_goals_lowerAll program.mainCode.2 program.functions label
  have behind :
      FlatCode.goals (instructions program.functionCode) =
        FlatCode.goals (instructions
          (Function.lowerAll program.mainCode.2 program.functions).1) := by
    unfold functionCode
    split
    · next none => rw [none]; rfl
    · rfl
  rw [labels_mainCode] at functions
  rw [lower_eq_append, instructions_append, goals_append, List.mem_append,
    behind, functions, mainCode, main]
  simp only [goals, branchLabels, labelRange_add, List.mem_append]
  grind

theorem goals_guarded (assembly : Assembly) :
    FlatCode.goals assembly.guarded.code.toList =
      FlatCode.goals assembly.code.toList := by
  unfold Assembly.guarded
  split
  · rw [Array.toList_push, goals_append]
    exact List.append_nil _
  · rfl

/-! ## Programs with a listing -/

/-- The labels that have an address already, together with the labels of all loops and
functions, are the labels that exist, each of them once. -/
def SitesFit (program : Program) : Prop :=
  (program.labels.placedLabels ++ program.sites).Perm
    (labelRange 0 program.labels.created)

/-- A program has a listing if its entries can be assembled, all labels get an
address and every jump goes to an existing label. -/
theorem exists_generate_iff (program : Program) :
    (∃ lines, program.generate = .ok lines) ↔
      ∃ emitted,
        Assembly.ofEntries program.labels program.lower = .ok emitted ∧
          emitted.labels.placed = emitted.labels.created ∧
          ∀ label ∈ FlatCode.goals (instructions program.lower),
            label.number < emitted.labels.created := by
  have sameGoals (emitted : Assembly)
      (assembled :
        Assembly.ofEntries program.labels program.lower = .ok emitted) :
      FlatCode.goals emitted.guarded.code.toList =
        FlatCode.goals (instructions program.lower) := by
    rw [goals_guarded, Assembly.code_of_run assembled]
    simp
  constructor
  · intro generated
    obtain ⟨lines, generated⟩ := generated
    obtain ⟨assembly, assembled, listed⟩ := bind_eq_ok_iff.mp generated
    obtain ⟨emitted, run, guarded⟩ := bind_eq_ok_iff.mp assembled
    cases guarded
    have complete := Assembly.exists_address_of_listing listed
    rw [Assembly.labels_guarded] at complete
    refine ⟨emitted, run, complete.1, fun label aimed => ?_⟩
    rw [← sameGoals emitted run, mem_goals] at aimed
    obtain ⟨condition, member⟩ := aimed
    obtain ⟨address, found⟩ :=
      complete.2 label condition (Array.mem_def.mpr member)
    exact LabelTable.number_lt_of_address? found
  · intro assembled
    obtain ⟨emitted, run, complete, existing⟩ := assembled
    have listed : ∃ lines, emitted.guarded.listing = .ok lines := by
      apply Assembly.exists_listing
      · rw [Assembly.labels_guarded]
        exact complete
      · intro target condition member
        rw [Assembly.labels_guarded]
        apply LabelTable.exists_address_of_complete complete
        apply existing
        rw [← sameGoals emitted run, mem_goals]
        exact ⟨condition, Array.mem_def.mp member⟩
    obtain ⟨lines, listed⟩ := listed
    refine ⟨lines, bind_eq_ok_iff.mpr ⟨emitted.guarded, ?_, listed⟩⟩
    exact bind_eq_ok_iff.mpr ⟨emitted, run, rfl⟩

section Run

variable {emitted : Assembly}

theorem created_of_run
    (run : Assembly.ofEntries program.labels program.lower = .ok emitted) :
    emitted.labels.created = program.labels.created + program.branchLabels := by
  rw [(Assembly.labels_of_run run).1, creations_lower]

theorem placed_of_run
    (run : Assembly.ofEntries program.labels program.lower = .ok emitted) :
    emitted.labels.placed =
      program.labels.placed + program.sites.length + program.branchLabels := by
  have places := (placed_lower_perm program).length_eq
  rw [List.length_append, length_labelRange] at places
  rw [(Assembly.labels_of_run run).2, places, Nat.add_assoc]

/-- A loop or function that named a label which the code creates would place it a
second time, so it names a label that was there before. -/
theorem number_lt_of_mem_sites
    (run : Assembly.ofEntries program.labels program.lower = .ok emitted)
    (member : label ∈ program.sites) :
    label.number < program.labels.created := by
  have places := placed_lower_perm program
  have inCode : label ∈ placed program.lower :=
    places.mem_iff.mpr (List.mem_append_left _ member)
  have below : label.number < emitted.labels.created := by
    obtain ⟨address, found⟩ :=
      Assembly.exists_address_of_carries (Assembly.carries_of_run run) inCode
    exact LabelTable.number_lt_of_address? found
  have once := (Assembly.placeable_of_run run).2.1
  rw [places.nodup_iff, List.nodup_append] at once
  by_contra beyond
  have created :
      label ∈ labelRange program.labels.created program.branchLabels := by
    rw [created_of_run run] at below
    exact mem_labelRange.mpr ⟨Nat.le_of_not_lt beyond, below⟩
  exact once.2.2 label member label created rfl

theorem sitesFit_of_run
    (run : Assembly.ofEntries program.labels program.lower = .ok emitted)
    (complete : emitted.labels.placed = emitted.labels.created) :
    program.SitesFit := by
  have places := placed_lower_perm program
  obtain ⟨_, once, free⟩ := Assembly.placeable_of_run run
  rw [places.nodup_iff, List.nodup_append] at once
  have nodup : (program.labels.placedLabels ++ program.sites).Nodup := by
    refine List.nodup_append.mpr
      ⟨LabelTable.nodup_placedLabels _, once.1, ?_⟩
    rintro label before _ member rfl
    obtain ⟨address, found⟩ := LabelTable.mem_placedLabels.mp before
    have unplaced :=
      free label (places.mem_iff.mpr (List.mem_append_left _ member))
    rw [found] at unplaced
    cases unplaced
  have bounded :
      program.labels.placedLabels ++ program.sites ⊆
        labelRange 0 program.labels.created := by
    intro label member
    have below : label.number < program.labels.created := by
      rcases List.mem_append.mp member with before | inProgram
      · obtain ⟨address, found⟩ := LabelTable.mem_placedLabels.mp before
        exact LabelTable.number_lt_of_address? found
      · exact number_lt_of_mem_sites run inProgram
    exact mem_labelRange.mpr ⟨Nat.zero_le _, by omega⟩
  apply (List.subperm_of_subset nodup bounded).perm_of_length_le
  have created := created_of_run run
  have counted := placed_of_run run
  rw [length_labelRange, List.length_append, LabelTable.length_placedLabels]
  omega

end Run

theorem exists_run_of_sitesFit (fit : program.SitesFit) :
    ∃ emitted,
      Assembly.ofEntries program.labels program.lower = .ok emitted ∧
        emitted.labels.placed = emitted.labels.created := by
  have places := placed_lower_perm program
  have nodup := nodup_labelRange 0 program.labels.created
  rw [← fit.nodup_iff, List.nodup_append] at nodup
  obtain ⟨_, sitesNodup, apart⟩ := nodup
  have existing :
      ∀ label ∈ program.sites, label.number < program.labels.created := by
    intro label member
    have listed := fit.mem_iff.mp (List.mem_append_right _ member)
    have bound := (mem_labelRange.mp listed).2
    omega
  have once : (placed program.lower).Nodup := by
    rw [places.nodup_iff, List.nodup_append]
    refine ⟨sitesNodup, nodup_labelRange _ _, ?_⟩
    rintro label member _ created rfl
    have below := existing label member
    have above := (mem_labelRange.mp created).1
    omega
  have free :
      ∀ label ∈ placed program.lower,
        program.labels.address? label = none := by
    intro label member
    by_contra addressed
    have before : label ∈ program.labels.placedLabels :=
      LabelTable.mem_placedLabels.mpr (Option.ne_none_iff_exists'.mp addressed)
    rcases List.mem_append.mp (places.mem_iff.mp member) with site | created
    · exact apart label before label site rfl
    · have above := (mem_labelRange.mp created).1
      obtain ⟨address, found⟩ := LabelTable.mem_placedLabels.mp before
      have below := LabelTable.number_lt_of_address? found
      omega
  obtain ⟨emitted, run⟩ :
      ∃ emitted,
        Assembly.ofEntries program.labels program.lower = .ok emitted :=
    Assembly.exists_run (placeable_lower existing) once free
  refine ⟨emitted, run, ?_⟩
  have lengths := fit.length_eq
  rw [length_labelRange, List.length_append,
    LabelTable.length_placedLabels] at lengths
  rw [created_of_run run, placed_of_run run]
  omega

/-- A program has a listing exactly if the labels that have an address already,
together with the labels of all loops and functions, are the labels that exist, each
of them once, and the targets of all jump statements and the homes of all called
functions are below the number of labels that exist behind all conditionals. -/
theorem generates_iff_labels_fit (program : Program) :
    (∃ lines, program.generate = .ok lines) ↔
      program.SitesFit ∧
        ∀ label ∈ program.goals,
          label.number < program.labels.created + program.branchLabels := by
  rw [exists_generate_iff]
  constructor
  · intro assembled
    obtain ⟨emitted, run, complete, existing⟩ := assembled
    refine ⟨sitesFit_of_run run complete, fun label member => ?_⟩
    rw [← created_of_run run]
    apply existing
    exact (mem_goals_lower program label).mpr (Or.inl member)
  · intro fits
    obtain ⟨emitted, run, complete⟩ := exists_run_of_sitesFit fits.1
    refine ⟨emitted, run, complete, fun label aimed => ?_⟩
    rw [created_of_run run]
    rcases (mem_goals_lower program label).mp aimed with
      named | looped | created
    · exact fits.2 label named
    · have site : label ∈ program.sites := by
        simp only [sites, Function.sites, List.mem_append, List.mem_flatMap]
          at looped ⊢
        grind
      have below := number_lt_of_mem_sites run site
      omega
    · exact (mem_labelRange.mp created).2

-- The jump goes to the label that the conditional behind it creates.
example :
    Program.generate ⟨[], [.jump ⟨0⟩, .ifThen (.ofText "a") .empty], .empty⟩ =
      .ok ["jump 2 always", "jump 2 equal a 0", "noop"] := by
  decide +kernel

-- The loop names the label that the conditional has taken.
example :
    Program.generate
        ⟨[], [.ifThen (.ofText "a") (.loop ⟨1⟩ ⟨0⟩ (.ofText "b") .empty)],
          LabelTable.empty.create⟩ =
      .error (.placedTwice ⟨1⟩) := by
  decide +kernel

end Program

end FlatCode
