import FlatCode.Proofs.Lowering.Program
import FlatCode.Proofs.Reading.Link

/-!
# Every label of a program is placed once

The labels of a program that was read are those of its loops and functions,
which are numbered by reading, and those of its conditionals, which are numbered
by lowering.  All of them are placed exactly once, and every jump goes to one of
them.  So lowering and assembling cannot fail, and a source text has a listing
exactly when it is a program.

Addresses are given out in increasing order.  Therefore the label placed last
stands behind the last instruction if any label does, and the guard is there
exactly when it is needed.
-/

namespace FlatCode

open Entry

/-! ## Jumps go to placed labels -/

namespace Instruction

/-- A jump goes to a known label, all operands are good, a raw instruction has a
fit text, and no instruction does nothing. -/
def Aims
    (known : Label → Prop) (good : Operand → Prop) (fit : String → Prop) :
    Instruction → Prop
  | .jump target .always => known target
  | .jump target (.compare _ lhs rhs) => known target ∧ good lhs ∧ good rhs
  | .set target value => good target ∧ good value
  | .op _ target lhs rhs => good target ∧ good lhs ∧ good rhs
  | .read target cell index => good target ∧ good cell ∧ good index
  | .write value cell index => good value ∧ good cell ∧ good index
  | .raw text => fit text
  | .halt => True
  | .noop => False

variable {known : Label → Prop} {good : Operand → Prop} {fit : String → Prop}

theorem known_of_aims
    {target : Label} {condition : Condition}
    (aims : (Instruction.jump target condition).Aims known good fit) :
    known target := by
  cases condition with
  | always =>
      exact aims
  | compare operator lhs rhs =>
      exact aims.1

theorem forall_aims_append
    {first second : List Instruction}
    (firstAims : ∀ instruction ∈ first, instruction.Aims known good fit)
    (secondAims : ∀ instruction ∈ second, instruction.Aims known good fit) :
    ∀ instruction ∈ first ++ second, instruction.Aims known good fit := by
  intro instruction member
  rcases List.mem_append.mp member with early | late
  · exact firstAims instruction early
  · exact secondAims instruction late

end Instruction

open Instruction

/-- All operands that code uses apart from the words of the source are good. -/
structure AllowsCode (good : Operand → Prop) (functions : List Callee) : Prop
    extends Expr.Allows good functions where
  resume : ∀ callee ∈ functions, good (.resume callee.name)
  counter : good .counter
  zero : good (.word "0")
  one : good (.word "1")

/-- The words of the parts of a statement are good operands, raw instructions have
fit texts, and all calls go to the given functions.  A name can be that of a
function, so the variables of its calls are good as well. -/
structure Stmt.Parts.Admits
    (parts : Stmt.Parts) (functions : List Callee) (good : Operand → Prop)
    (fit : String → Prop) : Prop where
  name : ∀ text, parts.name text → good (.word text)
  resume : ∀ text, parts.name text → good (.resume text)
  result : ∀ text, parts.name text → good (.result text)
  raw : ∀ text, parts.raw text → fit text
  value : ∀ expr, parts.value expr →
    expr.Linked functions ∧ ∀ word ∈ expr.words, good (.word word)
  condition : ∀ expr, parts.condition expr →
    expr.Linked functions ∧ ∀ word ∈ expr.words, good (.word word)

section Targets

variable {functions : List Callee} {parts : Stmt.Parts}
  {known : Label → Prop} {good : Operand → Prop} {fit : String → Prop}

theorem aims_of_straight
    {code : List Instruction} (straight : Straight good functions code)
    (allows : AllowsCode good functions)
    (homes : ∀ callee ∈ functions, known callee.home) :
    ∀ instruction ∈ code, instruction.Aims known good fit := by
  induction straight with
  | nil =>
      simp
  | @cons instruction rest computes _ inductionHypothesis =>
      refine List.forall_mem_cons.mpr ⟨?_, inductionHypothesis⟩
      cases instruction with
      | set | op | read | write => exact computes
      | jump | raw | halt | noop => exact computes.elim
  | @enter callee rest member _ inductionHypothesis =>
      refine forall_aims_append ?_ inductionHypothesis
      simp only [Callee.enter, List.forall_mem_cons, Aims]
      exact
        ⟨⟨allows.resume callee member, allows.counter, allows.one⟩,
          homes callee member, by simp⟩

namespace Expr

variable (fit) in
theorem aims_lower
    {expr : Expr} (allows : AllowsCode good functions)
    (homes : ∀ callee ∈ functions, known callee.home)
    (admitted :
      expr.Linked functions ∧ ∀ word ∈ expr.words, good (.word word))
    (temps : Nat) :
    ∀ instruction ∈ (expr.lower .anywhere temps).code,
      instruction.Aims known good fit :=
  aims_of_straight
    (straight_lower_anywhere allows.toAllows admitted.1 admitted.2 temps)
    allows homes

variable (fit) in
theorem aims_lower_into
    {expr : Expr} (allows : AllowsCode good functions)
    (homes : ∀ callee ∈ functions, known callee.home)
    (admitted :
      expr.Linked functions ∧ ∀ word ∈ expr.words, good (.word word))
    {target : Operand} (temps : Nat) (targetGood : good target) :
    ∀ instruction ∈ (expr.lower (.into target) temps).code,
      instruction.Aims known good fit :=
  aims_of_straight
    (straight_into allows.toAllows admitted.1 admitted.2 temps targetGood)
    allows homes

variable (fit) in
theorem aims_lowerCondition
    {expr : Expr} (allows : AllowsCode good functions)
    (homes : ∀ callee ∈ functions, known callee.home)
    (admitted :
      expr.Linked functions ∧ ∀ word ∈ expr.words, good (.word word))
    {target : Label} (temps : Nat) (targetKnown : known target) :
    ∀ instruction ∈ (expr.lowerCondition target true temps).1,
      instruction.Aims known good fit := by
  obtain ⟨before, operator, lhs, rhs, shape, straight, lhsGood, rhsGood⟩ :=
    straight_lowerCondition allows.toAllows admitted.1 admitted.2 allows.zero
      target temps
  rw [shape]
  refine forall_aims_append (aims_of_straight straight allows homes) ?_
  simpa [Aims] using And.intro targetKnown (And.intro lhsGood rhsGood)

end Expr

namespace Stmt

theorem composes_aims
    (admits : parts.Admits functions good fit)
    (inside : ∀ name, parts.function = some name → parts.name name)
    (allows : AllowsCode good functions)
    (homes : ∀ callee ∈ functions, known callee.home) :
    Composes parts known fun code =>
      ∀ instruction ∈ code, instruction.Aims known good fit where
  nil := by simp
  append := forall_aims_append
  assign named read temps :=
    Expr.aims_lower_into fit allows homes (admits.value _ read) temps
      (admits.name _ named)
  operand read temps :=
    Expr.aims_lower fit allows homes (admits.value _ read) temps
  write named indexRead valueRead first second := by
    rw [List.forall_mem_singleton]
    exact
      ⟨Expr.good_operand allows.toAllows (admits.value _ valueRead).2 first,
        admits.name _ named,
        Expr.good_operand allows.toAllows (admits.value _ indexRead).2
          second⟩
  test read aimed temps :=
    Expr.aims_lowerCondition fit allows homes (admits.condition _ read) temps
      aimed
  result around read temps :=
    Expr.aims_lower_into fit allows homes (admits.value _ read) temps
      (admits.result _ (inside _ around))
  leave around := by
    rw [List.forall_mem_singleton]
    exact ⟨allows.counter, admits.resume _ (inside _ around)⟩
  jump aimed := by
    rw [List.forall_mem_singleton]
    exact aimed
  raw read := by
    rw [List.forall_mem_singleton]
    exact admits.raw _ read

end Stmt

end Targets

section Functions

variable {functions : List Function} {known : Label → Prop}
  {good : Operand → Prop}

/-- A function that code can call: its home is known, and its parameters and the
variables of its calls are good. -/
structure Function.Reached
    (known : Label → Prop) (good : Operand → Prop) (function : Function) :
    Prop where
  home : known function.home
  params : ∀ param ∈ function.params, good (.word param)
  resume : good (.resume function.name)
  result : good (.result function.name)

theorem AllowsCode.of_functions
    (allows : AllowsCode good [])
    (reached : ∀ function ∈ functions, function.Reached known good) :
    AllowsCode good (functions.map Function.callee) :=
  { allows with
    param := by
      intro callee member param paramMember
      obtain ⟨function, functionMember, rfl⟩ := List.mem_map.mp member
      exact (reached function functionMember).params param paramMember
    resume := by
      intro callee member
      obtain ⟨function, functionMember, rfl⟩ := List.mem_map.mp member
      exact (reached function functionMember).resume
    result := by
      intro callee member
      obtain ⟨function, functionMember, rfl⟩ := List.mem_map.mp member
      exact (reached function functionMember).result }

theorem homes_of_functions
    (reached : ∀ function ∈ functions, function.Reached known good) :
    ∀ callee ∈ functions.map Function.callee, known callee.home := by
  intro callee member
  obtain ⟨function, functionMember, rfl⟩ := List.mem_map.mp member
  exact (reached function functionMember).home

/-- A function of the right form is reached if its home is known. -/
theorem Function.reached_of_formed
    {parts : List Callee → Option String → Stmt.Parts} {fit : String → Prop}
    (admits : ∀ functions function,
      (parts functions function).Admits functions good fit)
    {earlier : List Function} {created : Nat} {function : Function}
    (formed : function.Formed parts earlier created)
    (home : known function.home) :
    function.Reached known good where
  home := home
  params param member :=
    (admits _ _).name param
      (formed.names param (List.mem_cons_of_mem _ member))
  resume := (admits _ _).resume _ (formed.names _ List.mem_cons_self)
  result := (admits _ _).result _ (formed.names _ List.mem_cons_self)

end Functions

namespace Function

theorem aims_lowerAll
    {parts : List Callee → Option String → Stmt.Parts}
    {good : Operand → Prop} {fit : String → Prop}
    (admits : ∀ functions function,
      (parts functions function).Admits functions good fit)
    (enclosed : ∀ functions function,
      (parts functions function).function = function)
    (allows : AllowsCode good [])
    {earlier : List Function} {created : Nat} {functions : List Function}
    (formed : FormedAll parts earlier created functions)
    {known : Label → Prop} {supply : Supply}
    (reached : ∀ function ∈ earlier, function.Reached known good)
    (labels : ∀ label ∈ placed (lowerAll supply functions).1, known label) :
    ∀ instruction ∈ instructions (lowerAll supply functions).1,
      instruction.Aims known good fit := by
  induction functions generalizing earlier created supply with
  | nil =>
      simp [lowerAll_nil]
  | cons first others inductionHypothesis =>
      simp only [lowerAll_cons, lower_eq, List.cons_append, placed_place,
        placed_append, List.forall_mem_cons, List.forall_mem_append] at labels
      obtain ⟨homeKnown, bodyKnown, othersKnown⟩ := labels
      have firstReached : first.Reached known good :=
        reached_of_formed admits formed.1 homeKnown
      have inside :
          ∀ name,
            (parts (earlier.map callee) (some first.name)).function =
                some name →
              (parts (earlier.map callee) (some first.name)).name name := by
        intro name around
        rw [enclosed] at around
        cases around
        exact formed.1.names _ List.mem_cons_self
      have body :=
        Stmt.holds_lowerAll
          (Stmt.composes_aims (admits _ _) inside
            (allows.of_functions reached) (homes_of_functions reached))
          first.body none created supply formed.1.body bodyKnown (by simp)
      have later :=
        inductionHypothesis formed.2
          (List.forall_mem_append.mpr
            ⟨reached, by simpa using firstReached⟩)
          othersKnown
      simp only [lowerAll_cons, lower_eq, List.cons_append,
        instructions_place, instructions_append]
      exact forall_aims_append body later

end Function

namespace Program

variable {program : Program}

theorem aims_lower
    {parts : List Callee → Option String → Stmt.Parts}
    {good : Operand → Prop} {fit : String → Prop}
    (admits : ∀ functions function,
      (parts functions function).Admits functions good fit)
    (enclosed : ∀ functions function,
      (parts functions function).function = function)
    (allows : AllowsCode good []) (formed : program.Formed parts) :
    ∀ instruction ∈ instructions program.lower,
      instruction.Aims (· ∈ placed program.lower) good fit := by
  have functionsPlaced :
      ∀ label ∈
          placed (Function.lowerAll program.mainCode.2 program.functions).1,
        label ∈ placed program.lower := by
    intro label member
    rw [lower_eq_append, placed_append, placed_functionCode]
    exact List.mem_append_right _ member
  have mainPlaced :
      ∀ label ∈ placed program.mainCode.1, label ∈ placed program.lower := by
    intro label member
    rw [lower_eq_append, placed_append]
    exact List.mem_append_left _ member
  have reached :
      ∀ function ∈ program.functions,
        function.Reached (· ∈ placed program.lower) good := by
    intro function member
    obtain ⟨_, _, functionFormed⟩ :=
      Function.formed_of_mem formed.functions member
    exact
      Function.reached_of_formed admits functionFormed
        (functionsPlaced _ (Function.home_mem_placed member _))
  have outside :
      ∀ name,
        (parts (program.functions.map Function.callee) none).function =
            some name →
          (parts (program.functions.map Function.callee) none).name name := by
    intro name around
    rw [enclosed] at around
    cases around
  have main :=
    Stmt.holds_lowerAll
      (Stmt.composes_aims (admits _ _) outside (allows.of_functions reached)
        (homes_of_functions reached))
      program.main none _ ⟨program.labels.created, 0⟩ formed.main mainPlaced
      (by simp)
  have functions :=
    Function.aims_lowerAll admits enclosed allows formed.functions (by simp)
      functionsPlaced
  intro instruction member
  rw [lower_eq_append, instructions_append, List.mem_append] at member
  rcases member with early | late
  · exact main instruction early
  · unfold functionCode at late
    split at late
    · cases late
    · rcases List.mem_cons.mp late with rfl | late
      · trivial
      · exact functions instruction late

theorem admits_linkedParts
    (functions : List Callee) (function : Option String) :
    (linkedParts functions function).Admits functions (fun _ => True)
      fun _ => True where
  name _ _ := trivial
  resume _ _ := trivial
  result _ _ := trivial
  raw _ _ := trivial
  value _ value := ⟨linked_of_value value, fun _ _ => trivial⟩
  condition _ condition := ⟨condition, fun _ _ => trivial⟩

theorem allowsCode_all : AllowsCode (fun _ => True) [] :=
  { temp := fun _ => trivial
    result := fun _ _ => trivial
    param := fun _ _ _ _ => trivial
    resume := fun _ _ => trivial
    counter := trivial
    zero := trivial
    one := trivial }

/-! ## Assembling a program -/

theorem exists_ofEntries (formed : program.WellFormed) :
    ∃ emitted,
      Assembly.ofEntries program.labels program.lower = .ok emitted := by
  have exist :
      ∀ label ∈ program.sites, label.number < program.labels.created := by
    intro label member
    rw [sites_eq_labelRange formed, mem_labelRange, Nat.zero_add] at member
    exact member.2
  apply Assembly.exists_run (placeable_lower exist)
  · exact nodup_placed formed
  · intro label _
    simp [formed.labels]

section Emitted

variable {emitted : Assembly}

theorem placed_eq_created
    (formed : program.WellFormed)
    (assembled :
      Assembly.ofEntries program.labels program.lower = .ok emitted) :
    emitted.labels.placed = emitted.labels.created := by
  obtain ⟨created, counted⟩ := Assembly.labels_of_run assembled
  have unplaced : program.labels.placed = 0 := by
    rw [formed.labels, LabelTable.placed_createMany]
    rfl
  rw [created, counted, (placed_perm_labelRange formed).length_eq,
    length_labelRange, creations_lower]
  show program.labels.placed + _ = _
  rw [unplaced, Nat.zero_add]

theorem exists_address
    (assembled :
      Assembly.ofEntries program.labels program.lower = .ok emitted)
    {label : Label} (member : label ∈ placed program.lower) :
    ∃ address, emitted.labels.address? label = some address :=
  Assembly.exists_address_of_carries (Assembly.carries_of_run assembled) member

theorem aims_code
    (formed : program.WellFormed)
    (assembled :
      Assembly.ofEntries program.labels program.lower = .ok emitted) :
    ∀ instruction ∈ emitted.code,
      instruction.Aims (· ∈ placed program.lower) (fun _ => True)
        fun _ => True := by
  intro instruction member
  rw [Assembly.code_of_run assembled] at member
  exact
    aims_lower admits_linkedParts (fun _ _ => rfl) allowsCode_all formed
      instruction
      (by simpa using member)

theorem ordered_emitted
    (formed : program.WellFormed)
    (assembled :
      Assembly.ofEntries program.labels program.lower = .ok emitted) :
    emitted.Ordered := by
  refine Assembly.ordered_of_run ?_ assembled
  rw [formed.labels]
  refine ⟨?_, ?_, ?_⟩
  · intro last recorded
    cases recorded
  · intro last recorded
    cases recorded
  · intro label address found
    simp at found

theorem mem_of_mem_guarded
    {instruction : Instruction} (member : instruction ∈ emitted.guarded.code) :
    instruction = .noop ∨ instruction ∈ emitted.code := by
  unfold Assembly.guarded at member
  split at member
  · exact (Array.mem_push.mp member).symm
  · exact Or.inr member

theorem exists_address_of_jump
    (formed : program.WellFormed)
    (assembled :
      Assembly.ofEntries program.labels program.lower = .ok emitted)
    {target : Label} {condition : Condition}
    (member : Instruction.jump target condition ∈ emitted.guarded.code) :
    ∃ address, emitted.guarded.labels.address? target = some address := by
  rw [Assembly.labels_guarded]
  rcases mem_of_mem_guarded member with guard | member
  · cases guard
  · have aims := aims_code formed assembled _ member
    exact exists_address assembled (known_of_aims aims)

theorem assemble_eq
    (assembled :
      Assembly.ofEntries program.labels program.lower = .ok emitted) :
    program.assemble = .ok emitted.guarded := by
  rw [assemble, assembled]
  rfl

theorem exists_generate
    (formed : program.WellFormed)
    (assembled :
      Assembly.ofEntries program.labels program.lower = .ok emitted) :
    ∃ lines,
      emitted.guarded.listing = .ok lines ∧ program.generate = .ok lines := by
  obtain ⟨lines, listed⟩ : ∃ lines, emitted.guarded.listing = .ok lines := by
    apply Assembly.exists_listing
    · rw [Assembly.labels_guarded]
      exact placed_eq_created formed assembled
    · intro target condition member
      exact exists_address_of_jump formed assembled member
  refine ⟨lines, listed, ?_⟩
  rw [generate, assemble_eq assembled]
  exact listed

theorem carries_parts
    (assembled :
      Assembly.ofEntries program.labels program.lower = .ok emitted) :
    emitted.guarded.Carries 0 program.mainCode.1 ∧
      emitted.guarded.Carries program.mainWidth program.functionCode := by
  have whole :=
    (Assembly.carries_of_run assembled).mono (Assembly.extends_guarded emitted)
  rw [lower_eq_append, Assembly.carries_append] at whole
  simpa [mainWidth] using whole

theorem functionCode_of_ne_nil
    (functions : program.functions ≠ []) :
    program.functionCode =
      .emit .halt ::
        (Function.lowerAll program.mainCode.2 program.functions).1 :=
  if_neg functions

theorem carries_functions
    (assembled :
      Assembly.ofEntries program.labels program.lower = .ok emitted) :
    emitted.guarded.Carries (program.mainWidth + 1)
      (Function.lowerAll program.mainCode.2 program.functions).1 := by
  by_cases none : program.functions = []
  · rw [none]
    trivial
  · have carried := (carries_parts assembled).2
    rw [functionCode_of_ne_nil none] at carried
    exact carried.2

theorem carries_of_mem_blocks
    (assembled :
      Assembly.ofEntries program.labels program.lower = .ok emitted)
    {block : Block} (member : block ∈ program.blocks) :
    emitted.guarded.Carries block.address block.entries :=
  Function.carries_blocks.mp (carries_functions assembled) block member

/-- What stands behind the main part: the instruction that stops the machine, the
guard or nothing. -/
theorem behind_main
    (assembled :
      Assembly.ofEntries program.labels program.lower = .ok emitted) :
    program.functions ≠ [] ∧
        emitted.guarded.code[program.mainWidth]? = some .halt ∨
      program.functions = [] ∧
        emitted.guarded.code[program.mainWidth]? = some .noop ∧
        emitted.guarded.code.size = program.mainWidth + 1 ∨
      program.functions = [] ∧
        emitted.guarded.code.size = program.mainWidth := by
  by_cases none : program.functions = []
  · have size : emitted.code.size = program.mainWidth := by
      rw [Assembly.code_of_run assembled, lower_eq_append, functionCode,
        if_pos none]
      simp [mainWidth, width]
    by_cases needed : emitted.needsGuard = true
    · have guard : emitted.guarded.code = emitted.code.push .noop := by
        rw [Assembly.guarded, if_pos needed]
      refine Or.inr (Or.inl ⟨none, ?_, ?_⟩)
      · rw [guard, ← size, Array.getElem?_push_size]
      · rw [guard, Array.size_push, size]
    · refine Or.inr (Or.inr ⟨none, ?_⟩)
      rw [Assembly.guarded, if_neg needed, size]
  · have carried := (carries_parts assembled).2
    rw [functionCode_of_ne_nil none] at carried
    exact Or.inl ⟨none, carried.1⟩

end Emitted

theorem compile_of_parse
    {source : String} {program : Program}
    (read : parse source = .ok program) :
    compile source =
      (program.generate.mapError .misplaced).map Text.unlines := by
  rw [compile, read]
  rfl

/-- A program that was read has a listing. -/
theorem exists_compile_of_parse
    {source : String} {program : Program}
    (read : parse source = .ok program) :
    ∃ emitted lines,
      Assembly.ofEntries program.labels program.lower = .ok emitted ∧
        emitted.guarded.listing = .ok lines ∧
        program.generate = .ok lines ∧
        compile source = .ok (Text.unlines lines) := by
  have formed := wellFormed_of_parse read
  obtain ⟨emitted, assembled⟩ := exists_ofEntries formed
  obtain ⟨lines, listed, generated⟩ := exists_generate formed assembled
  refine ⟨emitted, lines, assembled, listed, generated, ?_⟩
  rw [compile_of_parse read, generated]
  rfl

theorem compile_of_rejected
    {source : String} {diagnostic : Diagnostic}
    (failed : parse source = .error diagnostic) :
    compile source = .error (.rejected diagnostic) := by
  rw [compile, failed]
  rfl

end Program

/-- A source text has a listing exactly when it is a program.  All labels of a
program are placed, none of them twice and none before it exists, and every jump
goes to one of them. -/
theorem compile_eq_of_parse (source : String) :
    match Program.parse source with
    | .error diagnostic => compile source = .error (.rejected diagnostic)
    | .ok program =>
        ∃ emitted lines,
          Assembly.ofEntries program.labels program.lower = .ok emitted ∧
            (placed program.lower).Nodup ∧
            emitted.guarded.labels.placed = emitted.guarded.labels.created ∧
            (∀ target condition,
              Instruction.jump target condition ∈ emitted.guarded.code →
                ∃ address,
                  emitted.guarded.labels.address? target = some address) ∧
            program.generate = .ok lines ∧
            compile source = .ok (Text.unlines lines) := by
  cases read : Program.parse source with
  | error diagnostic =>
      rw [compile, read]
      rfl
  | ok program =>
      have formed := Program.wellFormed_of_parse read
      obtain ⟨emitted, assembled⟩ := Program.exists_ofEntries formed
      obtain ⟨lines, _, generated⟩ := Program.exists_generate formed assembled
      refine
        ⟨emitted, lines, assembled, Program.nodup_placed formed, ?_, ?_,
          generated, ?_⟩
      · rw [Assembly.labels_guarded]
        exact Program.placed_eq_created formed assembled
      · intro target condition member
        exact Program.exists_address_of_jump formed assembled member
      · have listing :
            compile source =
              (program.generate.mapError Failure.misplaced).bind
                fun code => .ok (Text.unlines code) := by
          rw [compile, read]
          rfl
        rw [listing, generated]
        rfl

/-- Every jump of a listing goes to one of its lines.  The guard is there
exactly when some label stands behind the last instruction, and no other
instruction does nothing. -/
theorem jumps_inside_listing
    {source : String} {program : Program}
    (read : Program.parse source = .ok program) :
    ∃ emitted lines,
      Assembly.ofEntries program.labels program.lower = .ok emitted ∧
        program.generate = .ok lines ∧
        lines.length = emitted.guarded.code.size ∧
        (∀ (index : Nat) target condition,
          emitted.guarded.code[index]? = some (.jump target condition) →
            ∃ address, address < lines.length ∧
              lines[index]? =
                some ("jump " ++ toString address ++ " " ++
                  condition.render)) ∧
        ((∃ label, emitted.labels.address? label = some emitted.code.size) ∧
            emitted.guarded.code = emitted.code.push .noop ∨
          (¬ ∃ label, emitted.labels.address? label = some emitted.code.size) ∧
            emitted.guarded.code = emitted.code) ∧
        Instruction.noop ∉ emitted.code := by
  have formed := Program.wellFormed_of_parse read
  obtain ⟨emitted, assembled⟩ := Program.exists_ofEntries formed
  obtain ⟨lines, listed, generated⟩ := Program.exists_generate formed assembled
  have ordered := Program.ordered_emitted formed assembled
  obtain ⟨sameLength, lookup⟩ := Assembly.getElem?_of_listing listed
  refine ⟨emitted, lines, assembled, generated, sameLength, ?_, ?_, ?_⟩
  · intro index target condition found
    obtain ⟨line, rendered, here⟩ := lookup index _ found
    have member : Instruction.jump target condition ∈ emitted.guarded.code :=
      Array.mem_of_getElem? found
    obtain ⟨address, placed⟩ :=
      Program.exists_address_of_jump formed assembled member
    rw [Instruction.render, placed] at rendered
    cases rendered
    rw [Assembly.labels_guarded] at placed
    refine ⟨address, ?_, here⟩
    rw [sameLength]
    exact Assembly.lt_size_guarded ordered placed
  · by_cases needed : emitted.needsGuard = true
    · refine Or.inl ⟨(Assembly.needsGuard_iff ordered).mp needed, ?_⟩
      rw [Assembly.guarded, if_pos needed]
    · refine Or.inr ⟨fun behind => needed ?_, ?_⟩
      · exact (Assembly.needsGuard_iff ordered).mpr behind
      · rw [Assembly.guarded, if_neg needed]
  · intro member
    exact Program.aims_code formed assembled _ member

/-- The two branches of the conditional end behind the last instruction, and the jump
behind the first branch goes to the guard there. -/
theorem jumps_inside_listing_of_conditional :
    ∃ program emitted lines address,
      Program.parse "if (a) x = 1; else x = 2;" = .ok program ∧
        Assembly.ofEntries program.labels program.lower = .ok emitted ∧
        program.generate = .ok lines ∧
        lines.length = emitted.guarded.code.size ∧
        emitted.guarded.code[2]? = some (.jump ⟨1⟩ .always) ∧
        address < lines.length ∧
        lines[2]? = some ("jump " ++ toString address ++ " always") ∧
        (∃ label, emitted.labels.address? label = some emitted.code.size) ∧
        Instruction.noop ∉ emitted.code := by
  obtain ⟨program, read, accepted⟩ :=
    Program.exists_of_accepted
      (show ((Program.parse "if (a) x = 1; else x = 2;").toOption.any
        fun program =>
          (Assembly.ofEntries program.labels program.lower).toOption.any
            fun emitted =>
              decide
                (emitted.guarded.code[2]? = some (.jump ⟨1⟩ .always) ∧
                  emitted.guarded.code[4]? = some .noop)) = true by
        decide +kernel)
  obtain ⟨emitted, lines, assembled, generated, sameLength, jumps, guard, once⟩ :=
    jumps_inside_listing read
  rw [assembled] at accepted
  obtain ⟨jumpHere, noopHere⟩ := of_decide_eq_true accepted
  obtain ⟨address, inside, here⟩ := jumps 2 _ _ jumpHere
  rw [String.append_assoc,
    show " " ++ Condition.always.render = " always" by decide] at here
  have behind :
      ∃ label, emitted.labels.address? label = some emitted.code.size := by
    rcases guard with ⟨behind, _⟩ | ⟨_, unguarded⟩
    · exact behind
    · rw [unguarded] at noopHere
      exact absurd (Array.mem_of_getElem? noopHere) once
  exact
    ⟨program, emitted, lines, address, read, assembled, generated, sameLength,
      jumpHere, inside, here, behind, once⟩

example :
    (compile "if (a) x = 1; else x = 2;").toOption =
      some
        "jump 3 equal a 0\nset x 1\njump 4 always\nset x 2\nnoop\n" := by
  decide +kernel

end FlatCode
