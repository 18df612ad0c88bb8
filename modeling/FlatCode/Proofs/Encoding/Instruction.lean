import FlatCode.Instruction
import FlatCode.Proofs.Reading.Word

/-!
# Instructions as words

A line of code is a sequence of words with one space between them: the name of the
instruction, an operator or an address where it has one, and its operands.  No word
holds a blank and none is empty, so the words are the pieces of the line between its
spaces, and the instruction can be read off them.

A label is gone once an instruction is written, so what is read off is a `Resolved`
instruction, in which a jump names an address.
-/

namespace FlatCode

/-- A text with at least one character and without blanks. -/
def Solid (text : String) : Prop :=
  text ≠ "" ∧ ∀ character ∈ text.toList, Text.isBlank character = false

instance : DecidablePred Solid := fun text =>
  decidable_of_iff (text ≠ "" ∧ text.toList.any Text.isBlank = false)
    (and_congr_right' (by simp))

theorem Solid.oneLine {text : String} (solid : Solid text) :
    Text.OneLine text.toList := by
  constructor
  · intro member
    have dark := solid.2 '\n' member
    revert dark
    decide
  · intro last
    have dark := solid.2 '\r' (List.mem_of_getLast? last)
    revert dark
    decide

theorem Solid.append
    {first second : String} (firstSolid : Solid first)
    (secondSolid : Solid second) :
    Solid (first ++ second) := by
  constructor
  · intro empty
    exact firstSolid.1 (String.append_eq_empty_iff.mp empty).1
  · rw [String.toList_append]
    exact List.forall_mem_append.mpr ⟨firstSolid.2, secondSolid.2⟩

theorem Spelled.solid {text : String} (spelled : Spelled text) : Solid text :=
  ⟨spelled.1, spelled.isBlank⟩

/-! ## Lines of words -/

namespace Text

/-- The pieces of a line between its spaces. -/
def pieces (line : String) : List String :=
  (line.toList.splitOn ' ').map String.ofList

variable {words : List String}

/-- The pieces of a line of solid words are those words. -/
theorem pieces_intercalate
    (solid : ∀ word ∈ words, Solid word) (some : words ≠ []) :
    pieces (" ".intercalate words) = words := by
  have unspaced : ∀ word ∈ words.map String.toList, ' ' ∉ word := by
    intro word member space
    obtain ⟨text, textMember, rfl⟩ := List.mem_map.mp member
    have dark := (solid text textMember).2 ' ' space
    revert dark
    decide
  have split :
      (" ".intercalate words).toList.splitOn ' ' = words.map String.toList := by
    rw [String.toList_intercalate]
    exact List.splitOn_intercalate ' ' unspaced (by simpa using some)
  rw [pieces, split, List.map_map]
  simp [Function.comp_def]

/-- A line of solid words stands on one line. -/
theorem oneLine_intercalate (solid : ∀ word ∈ words, Solid word) :
    OneLine (" ".intercalate words).toList := by
  rw [String.toList_intercalate]
  induction words with
  | nil =>
      exact ⟨by simp, by simp⟩
  | cons first others inductionHypothesis =>
      obtain ⟨firstSolid, othersSolid⟩ := List.forall_mem_cons.mp solid
      cases others with
      | nil =>
          simpa using firstSolid.oneLine
      | cons next later =>
          have space : OneLine " ".toList := ⟨by decide, by decide⟩
          rw [List.map_cons, List.map_cons, List.intercalate_cons_cons]
          exact
            (firstSolid.oneLine.append space).append
              (inductionHypothesis othersSolid)

end Text

/-! ## Operators -/

namespace Operator

def all : List Operator :=
  [.add, .sub, .mul, .div, .intDiv, .mod, .pow, .shl, .shr, .and, .or, .xor,
    .not, .logicalAnd, .equal, .notEqual, .lessThan, .lessThanEq, .greaterThan,
    .greaterThanEq, .abs, .sin, .cos, .tan, .floor, .ceil, .sqrt, .log10, .log,
    .rand, .max, .min, .atan2, .dst, .noise]

def ofMnemonic? (word : String) : Option Operator :=
  all.find? fun operator => operator.mnemonic == word

theorem mem_all (operator : Operator) : operator ∈ all := by
  cases operator <;> decide

theorem ofMnemonic?_mnemonic (operator : Operator) :
    ofMnemonic? operator.mnemonic = some operator := by
  have found : ∀ operator ∈ all, ofMnemonic? operator.mnemonic = some operator := by
    decide
  exact found operator (mem_all operator)

theorem solid_mnemonic (operator : Operator) : Solid operator.mnemonic := by
  have solid : ∀ operator ∈ all, Solid operator.mnemonic := by
    decide
  exact solid operator (mem_all operator)

end Operator

/-! ## Operands -/

def numberOf (digits : List Char) : Nat :=
  Nat.ofDigitChars 10 digits 0

theorem solid_toString (number : Nat) : Solid (toString number) := by
  rw [Nat.toString_eq_repr]
  refine ⟨Nat.repr_ne_empty, ?_⟩
  intro character member
  rw [Nat.toList_repr] at member
  have digit := Nat.isDigit_of_mem_toDigits (by decide) (by decide) member
  apply isBlank_of_isSpelling
  simp [isSpelling, Token.isWordChar, Char.isAlphanum, digit]

namespace Operand

/-- An operand of code: its words and the functions in it are spelled as such. -/
def Spelled : Operand → Prop
  | .word text => FlatCode.Spelled text
  | .temp _ => True
  | .resume function | .result function => FlatCode.Spelled function

instance : DecidablePred Spelled
  | .word text => inferInstanceAs (Decidable (FlatCode.Spelled text))
  | .temp _ => inferInstanceAs (Decidable True)
  | .resume function | .result function =>
      inferInstanceAs (Decidable (FlatCode.Spelled function))

/-- No operand is empty or holds a blank. -/
theorem solid_render {operand : Operand} (spelled : operand.Spelled) :
    Solid operand.render := by
  cases operand with
  | word text =>
      exact FlatCode.Spelled.solid spelled
  | temp number =>
      exact Solid.append (by decide) (solid_toString number)
  | resume function | result function =>
      exact Solid.append (by decide) (FlatCode.Spelled.solid spelled)

def ofText (text : String) : Operand :=
  match text.toList with
  | '$' :: 't' :: 'm' :: 'p' :: '$' :: digits => .temp (numberOf digits)
  | '$' :: 'r' :: 'a' :: '$' :: function => .resume (String.ofList function)
  | '$' :: 'r' :: 'e' :: 't' :: '$' :: function =>
      .result (String.ofList function)
  | _ => .word text

theorem ofText_render {operand : Operand} (spelled : operand.Spelled) :
    ofText operand.render = operand := by
  cases operand with
  | word text =>
      -- A word without a dollar sign in front is not taken for a temporary.
      have undollared := FlatCode.Spelled.undollared spelled
      unfold ofText
      split
      · next same => exact absurd (congrArg List.head? same) undollared
      · next same => exact absurd (congrArg List.head? same) undollared
      · next same => exact absurd (congrArg List.head? same) undollared
      · rfl
  | temp number =>
      simp [ofText, render, String.toList_append, numberOf]
  | resume function | result function =>
      simp [ofText, render, String.toList_append]

end Operand

/-! ## Instructions -/

/-- An instruction as it stands in a listing: a jump names an address. -/
inductive Resolved where
  | set (target value : Operand)
  | op (operator : Operator) (target lhs rhs : Operand)
  | jump (address : Nat) (condition : Condition)
  | read (target cell index : Operand)
  | write (value cell index : Operand)
  | halt
  | noop
  deriving DecidableEq, Repr

/-- What an instruction says once labels have addresses, unless it is raw. -/
def Instruction.resolve? (labels : LabelTable) : Instruction → Option Resolved
  | .set target value => some (.set target value)
  | .op operator target lhs rhs => some (.op operator target lhs rhs)
  | .jump target condition =>
      (labels.address? target).map fun address => .jump address condition
  | .read target cell index => some (.read target cell index)
  | .write value cell index => some (.write value cell index)
  | .raw _ => none
  | .halt => some .halt
  | .noop => some .noop

namespace Resolved

def head : Resolved → List String
  | .set .. => ["set"]
  | .op operator .. => ["op", operator.mnemonic]
  | .jump address .always => ["jump", toString address, "always"]
  | .jump address (.compare operator ..) =>
      ["jump", toString address, operator.mnemonic]
  | .read .. => ["read"]
  | .write .. => ["write"]
  | .halt => ["end"]
  | .noop => ["noop"]

def operands : Resolved → List Operand
  | .set target value => [target, value]
  | .op _ target lhs rhs => [target, lhs, rhs]
  | .jump _ .always => []
  | .jump _ (.compare _ lhs rhs) => [lhs, rhs]
  | .read target cell index => [target, cell, index]
  | .write value cell index => [value, cell, index]
  | .halt | .noop => []

def words (resolved : Resolved) : List String :=
  resolved.head ++ resolved.operands.map Operand.render

def ofWords? : List String → Option Resolved
  | ["end"] => some .halt
  | ["noop"] => some .noop
  | ["set", target, value] => some (.set (.ofText target) (.ofText value))
  | ["jump", address, "always"] =>
      some (.jump (numberOf address.toList) .always)
  | ["read", target, cell, index] =>
      some (.read (.ofText target) (.ofText cell) (.ofText index))
  | ["write", value, cell, index] =>
      some (.write (.ofText value) (.ofText cell) (.ofText index))
  | ["op", operator, target, lhs, rhs] =>
      (Operator.ofMnemonic? operator).map fun operator =>
        .op operator (.ofText target) (.ofText lhs) (.ofText rhs)
  | ["jump", address, operator, lhs, rhs] =>
      (Operator.ofMnemonic? operator).map fun operator =>
        .jump (numberOf address.toList)
          (.compare operator (.ofText lhs) (.ofText rhs))
  | _ => none

variable {resolved : Resolved}

theorem head_ne_nil (resolved : Resolved) : resolved.head ≠ [] := by
  unfold head
  split <;> exact List.cons_ne_nil _ _

theorem solid_head (resolved : Resolved) :
    ∀ word ∈ resolved.head, Solid word := by
  cases resolved with
  | set | read | write | halt | noop =>
      simp only [head]
      decide
  | op operator =>
      have verb : Solid "op" := by decide
      simpa [head] using And.intro verb operator.solid_mnemonic
  | jump address condition =>
      have verb : Solid "jump" := by decide
      have number := solid_toString address
      cases condition with
      | always =>
          have always : Solid "always" := by decide
          simpa [head] using And.intro verb (And.intro number always)
      | compare operator =>
          simpa [head] using
            And.intro verb (And.intro number operator.solid_mnemonic)

/-- The words of an instruction are solid if its operands are spelled as such. -/
theorem solid_words
    (spelled : ∀ operand ∈ resolved.operands, operand.Spelled) :
    ∀ word ∈ resolved.words, Solid word := by
  intro word member
  rcases List.mem_append.mp member with first | later
  · exact resolved.solid_head word first
  · obtain ⟨operand, operandMember, rfl⟩ := List.mem_map.mp later
    exact Operand.solid_render (spelled operand operandMember)

/-- An instruction is read off its words. -/
theorem ofWords?_words
    (spelled : ∀ operand ∈ resolved.operands, operand.Spelled) :
    ofWords? resolved.words = some resolved := by
  have texts :
      ∀ operand ∈ resolved.operands,
        Operand.ofText operand.render = operand :=
    fun operand member => Operand.ofText_render (spelled operand member)
  cases resolved with
  | set | read | write =>
      simp only [operands, List.forall_mem_cons] at texts
      simp [words, head, operands, ofWords?, texts]
  | op operator =>
      simp only [operands, List.forall_mem_cons] at texts
      simp [words, head, operands, ofWords?, texts,
        operator.ofMnemonic?_mnemonic]
  | jump address condition =>
      cases condition with
      | always =>
          simp [words, head, operands, ofWords?, numberOf]
      | compare operator lhs rhs =>
          simp only [operands, List.forall_mem_cons] at texts
          simp [words, head, operands, ofWords?, numberOf, texts,
            operator.ofMnemonic?_mnemonic]
  | halt =>
      rfl
  | noop =>
      rfl

end Resolved

/-- An instruction that is not raw is written as the words of what it says. -/
theorem Instruction.render_cases
    {labels : LabelTable} {instruction : Instruction} {line : String}
    (rendered : instruction.render labels = .ok line) :
    instruction = .raw line ∨
      ∃ resolved,
        instruction.resolve? labels = some resolved ∧
          line = " ".intercalate resolved.words := by
  cases instruction with
  | raw text =>
      cases rendered
      exact Or.inl rfl
  | jump target condition =>
      rw [render] at rendered
      cases found : labels.address? target with
      | none =>
          rw [found] at rendered
          cases rendered
      | some address =>
          rw [found] at rendered
          cases rendered
          refine Or.inr ⟨.jump address condition, ?_, ?_⟩
          · rw [resolve?, found]
            rfl
          · rw [← String.toList_inj]
            cases condition <;>
              simp [Resolved.words, Resolved.head, Resolved.operands,
                Condition.render, String.toList_append]
  | set | op | read | write | halt | noop =>
      cases rendered
      refine Or.inr ⟨_, rfl, ?_⟩
      rw [← String.toList_inj]
      simp [Resolved.words, Resolved.head, Resolved.operands,
        String.toList_append]

end FlatCode
