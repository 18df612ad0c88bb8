import FlatCode.Proofs.Encoding.Instruction
import FlatCode.Proofs.Placement

/-!
# The listing encodes the code

A listing is split into lines again, one for each instruction, so the line with a
given index is the instruction at that address.  And each line that is not that of a
raw instruction tells what the instruction is.

Both rest on the words that code can hold.  They come from the tokens of the source,
and the traversal of the code that shows where jumps go shows as well that all
operands are spelled like tokens and that all raw instructions stand on one line.
-/

namespace FlatCode

open Entry

namespace Program

variable {program : Program} {emitted : Assembly}

/-! ## What code is made of -/

theorem admits_wordedParts
    (functions : List Callee) (function : Option String) :
    (wordedParts functions function).Admits functions Operand.Spelled
      fun text => Text.OneLine text.toList where
  name := by
    rintro _ ⟨token, written, isIdentifier, rfl⟩
    exact written.word (Or.inr isIdentifier)
  resume := by
    rintro _ ⟨token, written, isIdentifier, rfl⟩
    exact written.word (Or.inr isIdentifier)
  result := by
    rintro _ ⟨token, written, isIdentifier, rfl⟩
    exact written.word (Or.inr isIdentifier)
  raw := by
    rintro _ ⟨token, written, isRaw, rfl⟩
    exact written.raw isRaw
  value := by
    rintro _ ⟨loose, ⟨linked, spelled⟩, rfl⟩
    exact
      ⟨(Expr.linked_normalize loose).mpr linked, Expr.spelled_normalize spelled⟩
  condition _ read := read

theorem allowsCode_spelled : AllowsCode Operand.Spelled [] :=
  { temp := fun _ => trivial
    result := nofun
    param := nofun
    resume := nofun
    counter := by decide
    zero := by decide
    one := by decide }

/-- The operands of code are spelled like tokens, and raw instructions stand on one
line. -/
theorem spelled_code
    (formed : program.Formed wordedParts)
    (assembled :
      Assembly.ofEntries program.labels program.lower = .ok emitted) :
    ∀ instruction ∈ emitted.guarded.code,
      instruction = .noop ∨
        instruction.Aims (· ∈ placed program.lower) Operand.Spelled
          fun text => Text.OneLine text.toList := by
  intro instruction member
  rcases mem_of_mem_guarded member with guard | member
  · exact Or.inl guard
  · rw [Assembly.code_of_run assembled] at member
    refine Or.inr ?_
    exact
      aims_lower admits_wordedParts (fun _ _ => rfl) allowsCode_spelled formed
        instruction (by simpa using member)

end Program

/-! ## Lines of code -/

namespace Instruction

variable {labels : LabelTable} {instruction : Instruction} {line : String}
  {known : Label → Prop} {good : Operand → Prop} {fit : String → Prop}

theorem good_of_aims
    {resolved : Resolved} (meant : instruction.resolve? labels = some resolved)
    (aims : instruction.Aims known good fit) :
    ∀ operand ∈ resolved.operands, good operand := by
  cases instruction with
  | set | op | read | write =>
      cases meant
      simpa [Resolved.operands, Aims] using aims
  | jump target condition =>
      obtain ⟨address, _, rfl⟩ := Option.map_eq_some_iff.mp meant
      cases condition with
      | always =>
          simp [Resolved.operands]
      | compare operator lhs rhs =>
          simpa [Resolved.operands] using aims.2
  | raw text =>
      cases meant
  | halt =>
      cases meant
      simp [Resolved.operands]
  | noop =>
      exact aims.elim

/-- An instruction stands on one line, and unless it is raw, the pieces of that
line tell what it says. -/
theorem encoded_of_spelled
    (spelled :
      instruction = .noop ∨
        instruction.Aims known Operand.Spelled
          fun text => Text.OneLine text.toList)
    (rendered : instruction.render labels = .ok line) :
    Text.OneLine line.toList ∧
      (instruction = .raw line ∨
        ∃ resolved,
          instruction.resolve? labels = some resolved ∧
            (∀ operand ∈ resolved.operands, Solid operand.render) ∧
            Resolved.ofWords? (Text.pieces line) = some resolved) := by
  rcases render_cases rendered with rfl | ⟨resolved, meant, rfl⟩
  · rcases spelled with guard | aims
    · cases guard
    · exact ⟨aims, Or.inl rfl⟩
  · have operands : ∀ operand ∈ resolved.operands, operand.Spelled := by
      rcases spelled with rfl | aims
      · cases meant
        simp [Resolved.operands]
      · exact good_of_aims meant aims
    have solid := Resolved.solid_words operands
    have some : resolved.words ≠ [] :=
      List.append_ne_nil_of_left_ne_nil resolved.head_ne_nil _
    refine ⟨Text.oneLine_intercalate solid, Or.inr ⟨resolved, meant, ?_, ?_⟩⟩
    · intro operand member
      exact Operand.solid_render (operands operand member)
    · rw [Text.pieces_intercalate solid some]
      exact Resolved.ofWords?_words operands

end Instruction

/-- The lines of a listing are the lines of the code, one for each instruction in
order.  A line that is not that of a raw instruction, split at its spaces, tells
which instruction it is, because no operand is empty or holds a blank. -/
theorem listing_encodes_code
    {source listing : String} (compiled : compile source = .ok listing) :
    ∃ program assembly lines,
      Program.parse source = .ok program ∧
        program.assemble = .ok assembly ∧
        program.generate = .ok lines ∧
        Text.lines listing.toList = lines.map String.toList ∧
        lines.length = assembly.code.size ∧
        ∀ (address : Nat) instruction,
          assembly.code[address]? = some instruction →
            ∃ line,
              lines[address]? = some line ∧
                instruction.render assembly.labels = .ok line ∧
                (instruction = .raw line ∨
                  ∃ resolved,
                    instruction.resolve? assembly.labels = some resolved ∧
                      (∀ operand ∈ resolved.operands, Solid operand.render) ∧
                      Resolved.ofWords? (Text.pieces line) =
                        some resolved) := by
  cases read : Program.parse source with
  | error diagnostic =>
      rw [Program.compile_of_rejected read] at compiled
      cases compiled
  | ok program =>
      obtain ⟨emitted, lines, assembled, listed, generated, written⟩ :=
        Program.exists_compile_of_parse read
      rw [written] at compiled
      cases compiled
      have spelled :=
        Program.spelled_code (Program.worded_of_parse read) assembled
      obtain ⟨sameLength, lookup⟩ := Assembly.getElem?_of_listing listed
      -- The listing is split only where two lines meet.
      have oneLines : ∀ line ∈ lines, Text.OneLine line.toList := by
        intro line member
        obtain ⟨address, inside, here⟩ := List.getElem_of_mem member
        have within : address < emitted.guarded.code.size := by
          rw [← sameLength]
          exact inside
        obtain ⟨other, rendered, found⟩ :=
          lookup address _ (Array.getElem?_eq_getElem within)
        rw [List.getElem?_eq_getElem inside, here] at found
        cases found
        exact
          (Instruction.encoded_of_spelled
            (spelled _ (Array.getElem_mem within)) rendered).1
      refine
        ⟨program, emitted.guarded, lines, rfl, Program.assemble_eq assembled,
          generated, Text.lines_unlines oneLines, sameLength, ?_⟩
      intro address instruction found
      obtain ⟨line, rendered, here⟩ := lookup address instruction found
      exact
        ⟨line, here, rendered,
          (Instruction.encoded_of_spelled
            (spelled _ (Array.mem_of_getElem? found)) rendered).2⟩

/-- Two raw instructions, one of them with a carriage return and one of them empty,
before an assignment, whose line tells what it is. -/
theorem listing_encodes_code_of_raw_lines :
    ∃ program assembly lines,
      Program.parse "$ a\rb\n$\nx = 1;" = .ok program ∧
        program.assemble = .ok assembly ∧
        program.generate = .ok lines ∧
        Text.lines "a\rb\n\nset x 1\n".toList = lines.map String.toList ∧
        lines.length = assembly.code.size ∧
        assembly.code[2]? = some (.set (.word "x") (.word "1")) ∧
        ∃ line,
          lines[2]? = some line ∧
            Resolved.ofWords? (Text.pieces line) =
              some (.set (.word "x") (.word "1")) := by
  obtain ⟨listing, compiled, same⟩ :=
    exists_ok_of_any
      (show ((compile "$ a\rb\n$\nx = 1;").toOption.any fun listing =>
          decide (listing = "a\rb\n\nset x 1\n")) = true by
        decide +kernel)
  obtain ⟨accepted, acceptedRead, carries⟩ :=
    Program.exists_of_accepted
      (show ((Program.parse "$ a\rb\n$\nx = 1;").toOption.any fun program =>
          program.assemble.toOption.any fun assembly =>
            decide
              (assembly.code[2]? = some (.set (.word "x") (.word "1")))) =
          true by
        decide +kernel)
  obtain ⟨program, assembly, lines, read, assembled, generated, split,
    sameLength, encodes⟩ := listing_encodes_code compiled
  obtain rfl : accepted = program :=
    Except.ok.inj (acceptedRead.symm.trans read)
  rw [assembled] at carries
  have setHere := of_decide_eq_true carries
  obtain ⟨line, here, _, raw | ⟨resolved, meant, _, told⟩⟩ :=
    encodes 2 _ setHere
  · cases raw
  · cases meant
    rw [of_decide_eq_true same] at split
    exact
      ⟨accepted, assembly, lines, read, assembled, generated, split, sameLength,
        setHere, line, here, told⟩

/-- A line and the instruction that it tells. -/
example :
    Resolved.ofWords? (Text.pieces "jump 12 lessThan $tmp$3 x") =
      some (.jump 12 (.compare .lessThan (.temp 3) (.word "x"))) := by
  decide +kernel

end FlatCode
