import FlatCode.Proofs.Encoding.Listing
import FlatCode.Proofs.Simulation.Name

/-!
# What instructions write and read

An instruction writes at most one variable and reads any number of them.  A raw
instruction is left out of this: nothing is known of it.

Variables are told apart by their texts.  All operands of code have texts of their
own, so a text is written or read exactly where its operand is.
-/

namespace FlatCode

open Entry

theorem Operand.Spelled.proper
    {operand : Operand} (spelled : operand.Spelled) :
    operand.Proper := by
  cases operand with
  | word text =>
      exact FlatCode.Spelled.undollared spelled
  | temp | resume | result =>
      trivial

namespace Instruction

def target? : Instruction → Option Operand
  | .set target _ | .op _ target _ _ | .read target _ _ => some target
  | .jump .. | .write .. | .raw _ | .halt | .noop => none

def sources : Instruction → List Operand
  | .set _ value => [value]
  | .op _ _ lhs rhs => [lhs, rhs]
  | .jump _ .always => []
  | .jump _ (.compare _ lhs rhs) => [lhs, rhs]
  | .read _ cell index => [cell, index]
  | .write value cell index => [value, cell, index]
  | .raw _ | .halt | .noop => []

/-- All operands of an instruction have texts of their own. -/
structure Proper (instruction : Instruction) : Prop where
  target : ∀ operand ∈ instruction.target?, operand.Proper
  sources : ∀ operand ∈ instruction.sources, operand.Proper

theorem operands_of_aims
    {instruction : Instruction} {known : Label → Prop}
    {good : Operand → Prop} {fit : String → Prop}
    (aims : instruction.Aims known good fit) :
    (∀ operand ∈ instruction.target?, good operand) ∧
      ∀ operand ∈ instruction.sources, good operand := by
  cases instruction with
  | jump target condition =>
      cases condition with
      | always =>
          simp [target?, sources]
      | compare operator lhs rhs =>
          simpa [target?, sources] using aims.2
  | set | op | read | write =>
      simpa [target?, sources, Aims] using aims
  | raw | halt | noop =>
      simp [target?, sources]

end Instruction

namespace Assembly

variable {assembly : Assembly} {address : Nat}

/-- The instruction at an address writes the variable of a name. -/
def Writes (assembly : Assembly) (address : Nat) (name : String) : Prop :=
  ∃ instruction operand,
    assembly.code[address]? = some instruction ∧
      instruction.target? = some operand ∧ operand.render = name

/-- The instruction at an address reads the variable of a name. -/
def Reads (assembly : Assembly) (address : Nat) (name : String) : Prop :=
  ∃ instruction operand,
    assembly.code[address]? = some instruction ∧
      operand ∈ instruction.sources ∧ operand.render = name

def readCount (assembly : Assembly) (name : String) : Nat :=
  (assembly.code.toList.flatMap Instruction.sources).countP
    fun operand => operand.render = name

section Proper

variable (proper : ∀ instruction ∈ assembly.code, instruction.Proper)
  {operand : Operand} (own : operand.Proper)

include proper own

theorem writes_render :
    assembly.Writes address operand.render ↔
      ∃ instruction,
        assembly.code[address]? = some instruction ∧
          instruction.target? = some operand := by
  constructor
  · intro writes
    obtain ⟨instruction, other, here, target, same⟩ := writes
    have otherProper :=
      (proper instruction (Array.mem_of_getElem? here)).target other target
    rw [Operand.render_inj otherProper own] at same
    subst same
    exact ⟨instruction, here, target⟩
  · intro writes
    obtain ⟨instruction, here, target⟩ := writes
    exact ⟨instruction, operand, here, target, rfl⟩

theorem reads_render :
    assembly.Reads address operand.render ↔
      ∃ instruction,
        assembly.code[address]? = some instruction ∧
          operand ∈ instruction.sources := by
  constructor
  · intro reads
    obtain ⟨instruction, other, here, member, same⟩ := reads
    have otherProper :=
      (proper instruction (Array.mem_of_getElem? here)).sources other member
    rw [Operand.render_inj otherProper own] at same
    subst same
    exact ⟨instruction, here, member⟩
  · intro reads
    obtain ⟨instruction, here, member⟩ := reads
    exact ⟨instruction, operand, here, member, rfl⟩

theorem readCount_render :
    assembly.readCount operand.render =
      (assembly.code.toList.flatMap Instruction.sources).count operand := by
  unfold readCount
  rw [List.count_eq_countP]
  apply List.countP_congr
  intro other member
  obtain ⟨instruction, inside, source⟩ := List.mem_flatMap.mp member
  have otherProper :=
    (proper instruction (Array.mem_def.mpr inside)).sources other source
  simp [Operand.render_inj otherProper own]

end Proper

end Assembly

namespace Program

variable {source : String} {program : Program} {emitted : Assembly}

/-- The guard apart, the code of a program consists of the instructions among its
entries. -/
theorem toList_guarded
    (assembled :
      Assembly.ofEntries program.labels program.lower = .ok emitted) :
    emitted.guarded.code.toList = instructions program.lower ∨
      emitted.guarded.code.toList =
        instructions program.lower ++ [.noop] := by
  have code : emitted.code.toList = instructions program.lower := by
    rw [Assembly.code_of_run assembled]
    simp
  unfold Assembly.guarded
  split
  · rw [Array.toList_push, code]
    exact Or.inr rfl
  · exact Or.inl code

theorem getElem?_guarded
    (assembled :
      Assembly.ofEntries program.labels program.lower = .ok emitted)
    {address : Nat} {instruction : Instruction}
    (other : instruction ≠ .noop) :
    emitted.guarded.code[address]? = some instruction ↔
      (instructions program.lower)[address]? = some instruction := by
  rw [← Array.getElem?_toList]
  rcases toList_guarded assembled with code | code
  · rw [code]
  · rw [code, List.getElem?_append]
    by_cases inside : address < (instructions program.lower).length
    · rw [if_pos inside]
    · rw [if_neg inside, List.getElem?_eq_none (Nat.le_of_not_lt inside)]
      cases address - (instructions program.lower).length with
      | zero =>
          simp [Ne.symm other]
      | succ =>
          simp

/-- All operands in the code of a program that was read have texts of their own. -/
theorem proper_of_parse
    (read : parse source = .ok program)
    (assembled :
      Assembly.ofEntries program.labels program.lower = .ok emitted) :
    ∀ instruction ∈ emitted.guarded.code, instruction.Proper := by
  intro instruction member
  have spelled := spelled_code (worded_of_parse read) assembled
  rcases spelled instruction member with guard | aims
  · subst guard
    exact ⟨by simp [Instruction.target?], by simp [Instruction.sources]⟩
  · have operands := Instruction.operands_of_aims aims
    exact
      ⟨fun operand member => (operands.1 operand member).proper,
        fun operand member => (operands.2 operand member).proper⟩

end Program

/-- An identifier of a source text is not the name of a variable of code's own. -/
theorem identifier_ne_render
    {source : String} {token : Token}
    (member : token ∈ (Token.Stream.ofString source).tokens)
    (identifier : token.kind = .identifier)
    {operand : Operand} (dollared : ¬ Undollared operand.render) :
    token.payload ≠ operand.render := by
  intro same
  have spelled : Spelled token.payload :=
    (Token.written_ofString source token member).word (Or.inr identifier)
  apply dollared
  rw [← same]
  exact spelled.undollared

end FlatCode
