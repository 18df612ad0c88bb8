import FlatCode.Proofs.Lowering.Stmt

/-!
# The layout of a program

The code of a program consists of the main part and, behind an instruction that
stops the machine, of one `Block` for each function.  A block knows its address
and the supply of labels and temporaries with which its code was lowered.

The labels that code places are those of loops and functions and those that the
code creates: `placed_lower_perm`.  In a program that was read these are all labels
that exist, each of them once: `placed_perm_labelRange`.
-/

namespace FlatCode

open Entry

/-- A function with the functions above it, the address of its first instruction
and the supply with which it is lowered. -/
structure Block where
  earlier : List Function
  function : Function
  address : Nat
  supply : Supply

namespace Block

def entries (block : Block) : List Entry :=
  (block.function.lower block.supply).1

def limit (block : Block) : Nat :=
  block.address + width block.entries

end Block

namespace Function

variable {parts : List Callee → Option String → Stmt.Parts}
  {earlier : List Function} {created : Nat}

theorem lower_eq (supply : Supply) (function : Function) :
    function.lower supply =
      let body := Stmt.lowerAll supply function.body
      (.place function.home :: body.1, body.2) := rfl

theorem lowerAll_nil (supply : Supply) : lowerAll supply [] = ([], supply) := rfl

theorem lowerAll_cons
    (supply : Supply) (first : Function) (others : List Function) :
    lowerAll supply (first :: others) =
      let code := first.lower supply
      let rest := lowerAll code.2 others
      (code.1 ++ rest.1, rest.2) := rfl

theorem lowerAll_append (supply : Supply) (first second : List Function) :
    lowerAll supply (first ++ second) =
      let code := lowerAll supply first
      let rest := lowerAll code.2 second
      (code.1 ++ rest.1, rest.2) := by
  induction first generalizing supply with
  | nil =>
      rfl
  | cons head tail inductionHypothesis =>
      simp only [List.cons_append, lowerAll_cons, inductionHypothesis,
        List.append_assoc]

def blocks (earlier : List Function) (address : Nat) (supply : Supply) :
    List Function → List Block
  | [] => []
  | first :: others =>
      let code := first.lower supply
      ⟨earlier, first, address, supply⟩ ::
        blocks (earlier ++ [first]) (address + width code.1) code.2 others

theorem map_function_blocks
    (earlier : List Function) (address : Nat) (supply : Supply)
    (functions : List Function) :
    (blocks earlier address supply functions).map Block.function =
      functions := by
  induction functions generalizing earlier address supply with
  | nil =>
      rfl
  | cons first others inductionHypothesis =>
      exact congrArg (first :: ·) (inductionHypothesis _ _ _)

theorem carries_blocks
    {assembly : Assembly} {address : Nat} {supply : Supply}
    {functions : List Function} :
    assembly.Carries address (lowerAll supply functions).1 ↔
      ∀ block ∈ blocks earlier address supply functions,
        assembly.Carries block.address block.entries := by
  induction functions generalizing earlier address supply with
  | nil =>
      simp [lowerAll_nil, blocks, Assembly.Carries]
  | cons first others inductionHypothesis =>
      rw [lowerAll_cons, blocks, Assembly.carries_append,
        List.forall_mem_cons]
      exact and_congr_right fun _ => inductionHypothesis

/-- A block stands behind the code of the functions above it. -/
theorem exists_of_mem_blocks
    {address : Nat} {supply : Supply} {functions : List Function}
    {block : Block} (member : block ∈ blocks earlier address supply functions) :
    ∃ above below,
      block.earlier = earlier ++ above ∧
        functions = above ++ block.function :: below ∧
        block.supply = (lowerAll supply above).2 ∧
        block.address = address + width (lowerAll supply above).1 := by
  induction functions generalizing earlier address supply with
  | nil =>
      cases member
  | cons first others inductionHypothesis =>
      rcases List.mem_cons.mp member with rfl | later
      · exact ⟨[], others, (List.append_nil earlier).symm, rfl, rfl, rfl⟩
      · obtain ⟨above, below, listed, split, supplied, placed⟩ :=
          inductionHypothesis later
        refine ⟨first :: above, below, ?_, ?_, ?_, ?_⟩
        · rw [listed, List.append_assoc, List.singleton_append]
        · rw [split, List.cons_append]
        · rw [supplied, lowerAll_cons]
        · rw [placed, lowerAll_cons, width_append, Nat.add_assoc]

theorem formed_of_mem_blocks
    {address : Nat} {supply : Supply} {functions : List Function}
    (formed : FormedAll parts earlier created functions) {block : Block}
    (member : block ∈ blocks earlier address supply functions) :
    ∃ before, block.function.Formed parts block.earlier before := by
  induction functions generalizing earlier created address supply with
  | nil =>
      cases member
  | cons first others inductionHypothesis =>
      rcases List.mem_cons.mp member with rfl | later
      · exact ⟨created, formed.1⟩
      · exact inductionHypothesis formed.2 later

theorem mem_of_mem_earlier
    {address : Nat} {supply : Supply} {functions : List Function}
    {block : Block} (member : block ∈ blocks earlier address supply functions)
    {function : Function} (above : function ∈ block.earlier) :
    function ∈ earlier ++ functions := by
  induction functions generalizing earlier address supply with
  | nil =>
      cases member
  | cons first others inductionHypothesis =>
      rcases List.mem_cons.mp member with rfl | later
      · exact List.mem_append_left _ above
      · have found := inductionHypothesis later
        rwa [List.append_assoc, List.singleton_append] at found

theorem formed_of_mem
    {functions : List Function}
    (formed : FormedAll parts earlier created functions)
    {function : Function} (member : function ∈ functions) :
    ∃ above before, function.Formed parts above before := by
  have listed := map_function_blocks earlier 0 ⟨0, 0⟩ functions
  rw [← listed] at member
  obtain ⟨block, blockMember, rfl⟩ := List.mem_map.mp member
  obtain ⟨before, blockFormed⟩ := formed_of_mem_blocks formed blockMember
  exact ⟨block.earlier, before, blockFormed⟩

/-! ## Labels of functions -/

/-- The labels of the loops of a function, and its home behind them. -/
def sites (function : Function) : List Label :=
  Stmt.loopSitesAll function.body ++ [function.home]

theorem sites_eq_labelRange
    {earlier : List Function} {created : Nat} {function : Function}
    (formed : function.Formed parts earlier created) :
    function.sites = labelRange created function.labelCount := by
  rw [sites, formed.home, labelCount, labelRange_add,
    Stmt.loopSitesAll_eq_labelRange function.body none created formed.body]
  rfl

theorem flatMap_sites_eq_labelRange
    {earlier functions : List Function} {created : Nat}
    (formed : FormedAll parts earlier created functions) :
    functions.flatMap sites = labelRange created (labelCountAll functions) := by
  induction functions generalizing earlier created with
  | nil =>
      rfl
  | cons first others inductionHypothesis =>
      rw [List.flatMap_cons, labelCountAll, labelRange_add,
        sites_eq_labelRange formed.1, inductionHypothesis formed.2]

def branchLabels (function : Function) : Nat :=
  Stmt.branchLabelsAll function.body

def branchLabelsAll : List Function → Nat
  | [] => 0
  | first :: others => first.branchLabels + branchLabelsAll others

theorem labels_lower (supply : Supply) (function : Function) :
    (function.lower supply).2.labels =
      supply.labels + function.branchLabels :=
  Stmt.labels_lowerAll function.body supply

theorem creations_lower (supply : Supply) (function : Function) :
    creations (function.lower supply).1 = function.branchLabels :=
  Stmt.creations_lowerAll function.body supply

theorem creations_lowerAll (supply : Supply) (functions : List Function) :
    creations (lowerAll supply functions).1 = branchLabelsAll functions := by
  induction functions generalizing supply with
  | nil =>
      rfl
  | cons first others inductionHypothesis =>
      rw [lowerAll_cons, creations_append, creations_lower,
        inductionHypothesis, branchLabelsAll]

theorem count_placed_lower
    (supply : Supply) (function : Function) (label : Label) :
    (placed (function.lower supply).1).count label =
      function.sites.count label +
        (labelRange supply.labels function.branchLabels).count label := by
  have body := Stmt.count_placed_lowerAll function.body supply label
  simp only [lower_eq, placed_place, sites, branchLabels, List.count_append,
    List.count_cons, List.count_nil, body]
  omega

theorem count_placed_lowerAll
    (supply : Supply) (functions : List Function) (label : Label) :
    (placed (lowerAll supply functions).1).count label =
      (functions.flatMap sites).count label +
        (labelRange supply.labels (branchLabelsAll functions)).count label := by
  induction functions generalizing supply with
  | nil =>
      simp [lowerAll_nil, branchLabelsAll]
  | cons first others inductionHypothesis =>
      have head := count_placed_lower supply first label
      have tail := inductionHypothesis (first.lower supply).2
      rw [labels_lower] at tail
      simp only [lowerAll_cons, branchLabelsAll, placed_append,
        List.flatMap_cons, labelRange_add, List.count_append, head, tail]
      omega

theorem placeable_lower
    {supply : Supply} {function : Function}
    (exist : ∀ label ∈ function.sites, label.number < supply.labels) :
    Placeable supply.labels (function.lower supply).1 := by
  rw [sites, List.forall_mem_append, List.forall_mem_singleton] at exist
  exact ⟨exist.2, Stmt.placeable_lowerAll function.body supply exist.1⟩

theorem placeable_lowerAll
    {supply : Supply} {functions : List Function}
    (exist : ∀ label ∈ functions.flatMap sites,
      label.number < supply.labels) :
    Placeable supply.labels (lowerAll supply functions).1 := by
  induction functions generalizing supply with
  | nil =>
      trivial
  | cons first others inductionHypothesis =>
      rw [List.flatMap_cons, List.forall_mem_append] at exist
      have head : Placeable supply.labels (first.lower supply).1 :=
        placeable_lower exist.1
      have tail :
          Placeable (first.lower supply).2.labels
            (lowerAll (first.lower supply).2 others).1 := by
        apply inductionHypothesis
        intro label member
        rw [labels_lower]
        exact Nat.lt_add_right _ (exist.2 label member)
      rw [labels_lower, ← creations_lower supply first] at tail
      rw [lowerAll_cons]
      exact placeable_append.mpr ⟨head, tail⟩

theorem home_mem_placed
    {functions : List Function} {function : Function}
    (member : function ∈ functions) (supply : Supply) :
    function.home ∈ placed (lowerAll supply functions).1 := by
  induction functions generalizing supply with
  | nil =>
      cases member
  | cons first others inductionHypothesis =>
      rw [lowerAll_cons, placed_append, List.mem_append]
      rcases List.mem_cons.mp member with rfl | later
      · exact Or.inl List.mem_cons_self
      · exact Or.inr (inductionHypothesis later _)

theorem placed_body_subset
    {address : Nat} {supply : Supply} {functions : List Function}
    {block : Block} (member : block ∈ blocks earlier address supply functions)
    {label : Label}
    (inside : label ∈ placed (Stmt.lowerAll block.supply block.function.body).1) :
    label ∈ placed (lowerAll supply functions).1 := by
  induction functions generalizing earlier address supply with
  | nil =>
      cases member
  | cons first others inductionHypothesis =>
      rw [lowerAll_cons, placed_append, List.mem_append]
      rcases List.mem_cons.mp member with rfl | later
      · exact Or.inl (List.mem_cons_of_mem _ inside)
      · exact Or.inr (inductionHypothesis later)

theorem home_ne_of_nodup
    {address : Nat} {supply : Supply} {functions : List Function}
    (nodup : (placed (lowerAll supply functions).1).Nodup)
    {block : Block} (member : block ∈ blocks earlier address supply functions)
    {label : Label}
    (inside : label ∈ placed (Stmt.lowerAll block.supply block.function.body).1)
    {function : Function} (functionMember : function ∈ functions) :
    function.home ≠ label := by
  induction functions generalizing earlier address supply with
  | nil =>
      cases member
  | cons first others inductionHypothesis =>
      rw [lowerAll_cons, placed_append, List.nodup_append] at nodup
      obtain ⟨firstNodup, othersNodup, apart⟩ := nodup
      rw [lower_eq, placed_place, List.nodup_cons] at firstNodup
      rintro rfl
      rcases List.mem_cons.mp member with rfl | laterBlock
      · rcases List.mem_cons.mp functionMember with rfl | laterFunction
        · exact firstNodup.1 inside
        · exact
            apart _ (List.mem_cons_of_mem _ inside) _
              (home_mem_placed laterFunction _) rfl
      · rcases List.mem_cons.mp functionMember with rfl | laterFunction
        · exact
            apart _ List.mem_cons_self _ (placed_body_subset laterBlock inside)
              rfl
        · exact inductionHypothesis othersNodup laterBlock laterFunction rfl

end Function

namespace Program

def mainCode (program : Program) : List Entry × Supply :=
  Stmt.lowerAll ⟨program.labels.created, 0⟩ program.main

def mainWidth (program : Program) : Nat :=
  width program.mainCode.1

/-- The blocks of the functions of a program, behind the main part and the
instruction that stops the machine. -/
def blocks (program : Program) : List Block :=
  Function.blocks [] (program.mainWidth + 1) program.mainCode.2
    program.functions

def functionCode (program : Program) : List Entry :=
  if program.functions = [] then
    []
  else
    .emit .halt :: (Function.lowerAll program.mainCode.2 program.functions).1

theorem lower_eq_append (program : Program) :
    program.lower = program.mainCode.1 ++ program.functionCode := by
  unfold lower functionCode mainCode
  cases functions : program.functions with
  | nil =>
      simp
  | cons first others =>
      simp

section Placed

variable {parts : List Callee → Option String → Stmt.Parts}
  {program : Program}

theorem placed_functionCode (program : Program) :
    placed program.functionCode =
      placed (Function.lowerAll program.mainCode.2 program.functions).1 := by
  unfold functionCode
  split
  · next none => rw [none]; rfl
  · rfl

theorem creations_functionCode (program : Program) :
    creations program.functionCode =
      Function.branchLabelsAll program.functions := by
  rw [← Function.creations_lowerAll program.mainCode.2]
  unfold functionCode
  split
  · next none => rw [none]; rfl
  · rfl

theorem created_eq (formed : program.Formed parts) :
    program.labels.created =
      Function.labelCountAll program.functions +
        Stmt.loopLabelsAll program.main := by
  rw [formed.labels, LabelTable.created_createMany]
  exact Nat.zero_add _

/-- The labels of all loops and functions of a program, in the order of the
text. -/
def sites (program : Program) : List Label :=
  program.functions.flatMap Function.sites ++ Stmt.loopSitesAll program.main

theorem sites_eq_labelRange (formed : program.Formed parts) :
    program.sites = labelRange 0 program.labels.created := by
  rw [sites, created_eq formed, labelRange_add, Nat.zero_add,
    Function.flatMap_sites_eq_labelRange formed.functions,
    Stmt.loopSitesAll_eq_labelRange program.main none _ formed.main]

def branchLabels (program : Program) : Nat :=
  Stmt.branchLabelsAll program.main +
    Function.branchLabelsAll program.functions

theorem labels_mainCode (program : Program) :
    program.mainCode.2.labels =
      program.labels.created + Stmt.branchLabelsAll program.main :=
  Stmt.labels_lowerAll program.main ⟨program.labels.created, 0⟩

theorem creations_lower (program : Program) :
    creations program.lower = program.branchLabels := by
  rw [lower_eq_append, creations_append, creations_functionCode, branchLabels,
    mainCode, Stmt.creations_lowerAll]

/-- The code of a program places the labels of its loops and functions and the
labels that it creates. -/
theorem placed_lower_perm (program : Program) :
    (placed program.lower).Perm
      (program.sites ++
        labelRange program.labels.created program.branchLabels) := by
  refine List.perm_iff_count.mpr fun label => ?_
  have main :=
    Stmt.count_placed_lowerAll program.main ⟨program.labels.created, 0⟩ label
  have functions :=
    Function.count_placed_lowerAll program.mainCode.2 program.functions label
  rw [labels_mainCode] at functions
  rw [lower_eq_append, placed_append, placed_functionCode, List.count_append,
    functions]
  rw [show (placed program.mainCode.1).count label = _ from main]
  simp only [sites, branchLabels, labelRange_add, List.count_append]
  omega

theorem placeable_lower
    (exist : ∀ label ∈ program.sites,
      label.number < program.labels.created) :
    Placeable program.labels.created program.lower := by
  rw [sites, List.forall_mem_append] at exist
  have main : Placeable program.labels.created program.mainCode.1 :=
    Stmt.placeable_lowerAll program.main ⟨program.labels.created, 0⟩ exist.2
  have functions :
      Placeable program.mainCode.2.labels
        (Function.lowerAll program.mainCode.2 program.functions).1 := by
    apply Function.placeable_lowerAll
    intro label member
    rw [labels_mainCode]
    exact Nat.lt_add_right _ (exist.1 label member)
  rw [labels_mainCode, ← Stmt.creations_lowerAll program.main
    ⟨program.labels.created, 0⟩] at functions
  rw [lower_eq_append]
  refine placeable_append.mpr ⟨main, ?_⟩
  unfold functionCode
  split
  · trivial
  · exact functions

/-- The labels that a program places are those that exist at the end, each of
them once. -/
theorem placed_perm_labelRange (formed : program.Formed parts) :
    (placed program.lower).Perm
      (labelRange 0 (program.labels.created + program.branchLabels)) := by
  have places := placed_lower_perm program
  rw [sites_eq_labelRange formed] at places
  rw [labelRange_add, Nat.zero_add]
  exact places

theorem nodup_placed (formed : program.Formed parts) :
    (placed program.lower).Nodup :=
  (placed_perm_labelRange formed).nodup_iff.mpr (nodup_labelRange _ _)

theorem nodup_placed_parts (formed : program.Formed parts) :
    (placed program.mainCode.1 ++
      placed (Function.lowerAll program.mainCode.2 program.functions).1).Nodup := by
  have once := nodup_placed formed
  rwa [lower_eq_append, placed_append, placed_functionCode] at once

end Placed

end Program

end FlatCode
