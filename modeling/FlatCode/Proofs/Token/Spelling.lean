import FlatCode.Proofs.Text.Line
import FlatCode.Proofs.Token.Origin

/-!
# How tokens are spelled

Identifiers and numbers consist of letters, digits, underscores, points and at
signs, and they have at least one character.  So they hold no blank, and they do
not start with a dollar sign.

A raw instruction takes the rest of its line without the blanks around it.
Whatever else it holds, it stands on one line.
-/

namespace FlatCode

def isSpelling (character : Char) : Bool :=
  Token.isWordChar character || character == '.' || character == '@'

/-- A text that can be that of an identifier or a number. -/
def Spelled (text : String) : Prop :=
  text ≠ "" ∧ ∀ character ∈ text.toList, isSpelling character = true

instance : DecidablePred Spelled := fun text =>
  decidable_of_iff (text ≠ "" ∧ text.toList.all isSpelling = true)
    (and_congr_right' List.all_eq_true)

theorem toNat_of_isAlpha
    {character : Char} (alpha : character.isAlpha = true) :
    65 ≤ character.toNat ∧ character.toNat ≤ 122 := by
  rcases (Bool.or_eq_true _ _).mp alpha with upper | lower
  · have bounds : 65 ≤ character.toNat ∧ character.toNat ≤ 90 :=
      of_decide_eq_true upper
    omega
  · obtain ⟨least, most⟩ := (Bool.and_eq_true _ _).mp lower
    have least : 97 ≤ character.toNat := of_decide_eq_true least
    have most : character.toNat ≤ 122 := of_decide_eq_true most
    omega

theorem toNat_of_isSpelling
    {character : Char} (spelling : isSpelling character = true) :
    33 ≤ character.toNat ∧ character.toNat ≤ 126 := by
  simp only [isSpelling, Token.isWordChar, Bool.or_eq_true,
    beq_iff_eq] at spelling
  rcases spelling with ((alphanum | rfl) | rfl) | rfl
  · rcases (Bool.or_eq_true _ _).mp alphanum with alpha | digit
    · have bounds := toNat_of_isAlpha alpha
      omega
    · have bounds : 48 ≤ character.toNat ∧ character.toNat ≤ 57 :=
        Char.isDigit_iff_toNat.mp digit
      omega
  all_goals decide

theorem isBlank_of_isSpelling
    {character : Char} (spelling : isSpelling character = true) :
    Text.isBlank character = false := by
  have bounds := toNat_of_isSpelling spelling
  rw [Text.isBlank, Text.inRanges, List.any_eq_false]
  intro range member
  have outside : range.2 < 33 ∨ 126 < range.1 := by
    revert range
    decide
  simp only [Bool.and_eq_true, decide_eq_true_eq, not_and]
  omega

theorem Spelled.isBlank
    {text : String} (spelled : Spelled text) :
    ∀ character ∈ text.toList, Text.isBlank character = false :=
  fun character member => isBlank_of_isSpelling (spelled.2 character member)

namespace Token

/-- An identifier or a number is spelled as such, and a raw instruction stands on
one line. -/
structure Written (token : Token) : Prop where
  word :
    token.kind = .number ∨ token.kind = .identifier → Spelled token.payload
  raw : token.kind = .raw → Text.OneLine token.payload.toList

/-! ## Lexemes -/

/-- The kinds of tokens whose text is not fixed. -/
def varies (kind : Kind) : Bool :=
  kind = .number || kind = .identifier || kind = .raw

theorem written_of_fixed
    {kind : Kind} (fixed : varies kind = false) (text : Option String)
    (position : Position) :
    Written ⟨kind, text, position⟩ := by
  simp only [varies, Bool.or_eq_false_iff, decide_eq_false_iff_not] at fixed
  exact
    ⟨fun isOpen => (isOpen.elim fixed.1.1 fixed.1.2).elim,
      fun isRaw => (fixed.2 isRaw).elim⟩

theorem fixed_of_mem_keywords :
    ∀ entry ∈ keywords, varies entry.2 = false := by
  decide

theorem fixed_of_mem_operators :
    ∀ entry ∈ operators, varies entry.2 = false := by
  decide

theorem isSpelling_of_take_number
    {pointSeen : Bool} {rest : List Char} :
    ∀ character ∈ rest.take (numberLength pointSeen rest),
      isSpelling character = true := by
  induction rest generalizing pointSeen with
  | nil =>
      simp
  | cons first rest inductionHypothesis =>
      rw [numberLength]
      split
      · next digit =>
          rw [List.take_succ_cons]
          refine List.forall_mem_cons.mpr ⟨?_, inductionHypothesis⟩
          simp [isSpelling, isWordChar, Char.isAlphanum, digit]
      · split
        · next point =>
            rw [List.take_succ_cons]
            refine List.forall_mem_cons.mpr ⟨?_, inductionHypothesis⟩
            simp only [Bool.and_eq_true] at point
            simp [isSpelling, point.1]
        · simp

theorem isSpelling_of_take_word
    {rest : List Char} :
    ∀ character ∈ rest.take (wordLength rest),
      isSpelling character = true := by
  intro character member
  rw [wordLength] at member
  have inside : character ∈ rest.takeWhile isWordChar := by
    rwa [List.prefix_iff_eq_take.mp (List.takeWhile_prefix isWordChar)]
  have wordChar : isWordChar character = true :=
    List.all_eq_true.mp List.all_takeWhile character inside
  simp [isSpelling, wordChar]

theorem spelled_cons
    {first : Char} {rest : List Char}
    (start : startsNumber first = true ∨ startsWord first = true)
    (spelling : ∀ character ∈ rest, isSpelling character = true) :
    Spelled (String.ofList (first :: rest)) := by
  constructor
  · intro empty
    have characters := congrArg String.toList empty
    simp at characters
  · rw [String.toList_ofList]
    refine List.forall_mem_cons.mpr ⟨?_, spelling⟩
    simp only [startsNumber, startsWord, Bool.or_eq_true, beq_iff_eq] at start
    simp only [isSpelling, isWordChar, Char.isAlphanum, Bool.or_eq_true,
      beq_iff_eq]
    grind

theorem written_ofWord
    {word : String} (spelled : Spelled word)
    {extra : Nat} {kind : Kind} {text : Option String} {taken : Nat}
    (lexed : Lexeme.ofWord word extra = .token kind text taken)
    (position : Position) :
    Written ⟨kind, text, position⟩ := by
  unfold Lexeme.ofWord at lexed
  split at lexed
  · next keyword found =>
      cases lexed
      obtain ⟨entry, member, rfl⟩ := Option.map_eq_some_iff.mp found
      exact
        written_of_fixed
          (fixed_of_mem_keywords entry (List.mem_of_find?_eq_some member)) _ _
  · cases lexed
    exact ⟨fun _ => spelled, nofun⟩

/-- The lexemes of a line without line feeds. -/
theorem written_munch
    {first : Char} {rest : List Char} (lineFeed : '\n' ∉ rest)
    {kind : Kind} {text : Option String} {extra : Nat}
    (lexed : Lexeme.munch first rest = .token kind text extra)
    (position : Position) :
    Written ⟨kind, text, position⟩ := by
  unfold Lexeme.munch at lexed
  split at lexed
  · next spelling operator found =>
      cases lexed
      exact
        written_of_fixed
          (fixed_of_mem_operators _ (List.mem_of_find?_eq_some found)) _ _
  · split at lexed
    · next number =>
        cases lexed
        exact
          ⟨fun _ => spelled_cons (Or.inl number) isSpelling_of_take_number,
            nofun⟩
    · split at lexed
      · next word =>
          exact
            written_ofWord
              (spelled_cons (Or.inr word) isSpelling_of_take_word) lexed _
      · split at lexed
        · cases lexed
          refine ⟨fun isOpen => by simp at isOpen, fun _ => ?_⟩
          simpa [payload] using Text.oneLine_trim lineFeed
        · split at lexed <;> cases lexed

/-! ## Tokens of a text -/

theorem written_ofString (text : String) :
    ∀ token ∈ (Stream.ofString text).tokens, token.Written := by
  intro token member
  obtain ⟨index, line, found, _, first, rest, extra, suffix, lexed⟩ :=
    exists_line_of_mem_ofLines member
  have lineFeed : '\n' ∉ line :=
    Text.lineFeed_not_mem_of_mem_lines (List.mem_of_getElem? found)
  have restFeed : '\n' ∉ rest := fun inside =>
    lineFeed (suffix.subset (List.mem_cons_of_mem first inside))
  exact written_munch restFeed lexed token.position

end Token

end FlatCode
