import FlatCode.Proofs.Encoding.Instruction
import FlatCode.Proofs.Token.Partition

/-!
# Tokens listed and lexed again

A list of tokens names each of them by its description, one on each line.  Such a
list is a source text itself, and it is lexed to the same tokens:

* a description is the lexeme of its token, except that a raw instruction is listed
  without the blanks around it, which would be dropped again;
* alone on its line, a lexeme is taken as a whole, so no description is read as a
  token of another kind or as two tokens;
* a description stands on one line, whatever a raw instruction holds.
-/

namespace FlatCode.Token

/-! ## A lexeme alone on its line -/

/-- Every operator of the table is found in its own spelling. -/
theorem operatorAt?_self :
    ∀ entry ∈ operators, operatorAt? entry.1.toList = some entry := by
  decide +kernel

/-- No operator starts as a word, a number or a raw instruction does. -/
theorem head_of_mem_operators :
    ∀ entry ∈ operators, ∀ first ∈ entry.1.toList.head?,
      startsWord first = false ∧ startsNumber first = false ∧ first ≠ '$' := by
  have checked :
      (operators.all fun entry =>
        entry.1.toList.head?.all fun first =>
          !startsWord first && !startsNumber first && first != '$') = true := by
    decide +kernel
  intro entry listed first starts
  have fits := List.all_eq_true.mp checked entry listed
  rw [Option.mem_def.mp starts] at fits
  simpa [and_assoc] using fits

theorem operatorAt?_eq_none
    {first : Char}
    (foreign :
      startsWord first = true ∨ startsNumber first = true ∨ first = '$')
    (rest : List Char) :
    operatorAt? (first :: rest) = none := by
  rw [operatorAt?, List.find?_eq_none]
  intro entry listed fits
  have spelled : entry.1.toList <+: first :: rest :=
    List.isPrefixOf_iff_prefix.mp fits
  have solid : ∀ entry ∈ operators, entry.1.toList ≠ [] := by decide
  obtain ⟨head, tail, same⟩ := List.exists_cons_of_ne_nil (solid entry listed)
  rw [same, List.cons_prefix_cons] at spelled
  obtain ⟨rfl, _⟩ := spelled
  obtain ⟨noWord, noNumber, noDollar⟩ :=
    head_of_mem_operators entry listed head (by rw [same]; rfl)
  rcases foreign with word | number | dollar
  · rw [noWord] at word
    cases word
  · rw [noNumber] at number
    cases number
  · exact noDollar dollar

theorem not_startsNumber_of_startsWord
    {first : Char} (start : startsWord first = true) :
    startsNumber first = false := by
  simp only [startsWord, Bool.or_eq_true, beq_iff_eq] at start
  rcases start with (alpha | rfl) | rfl
  · have bounds := toNat_of_isAlpha alpha
    rw [startsNumber, Bool.or_eq_false_iff]
    constructor
    · rw [Bool.eq_false_iff]
      intro digit
      have small : first.toNat ≤ 57 := (Char.isDigit_iff_toNat.mp digit).2
      omega
    · rw [beq_eq_false_iff_ne]
      rintro rfl
      exact absurd bounds (by decide)
  · decide
  · decide

theorem munch_operator
    {entry : String × Kind} (listed : entry ∈ operators)
    {first : Char} {rest : List Char} (spelled : entry.1.toList = first :: rest) :
    Lexeme.munch first rest = .token entry.2 none rest.length := by
  have found := operatorAt?_self entry listed
  rw [spelled] at found
  have long : entry.1.length - 1 = rest.length := by
    rw [← String.length_toList, spelled]
    rfl
  rw [Lexeme.munch, found]
  simp only [long]

theorem munch_number
    {first : Char} (start : startsNumber first = true) (rest : List Char) :
    Lexeme.munch first rest =
      .token .number
        (some
          (String.ofList (first :: rest.take (numberLength (first == '.') rest))))
        (numberLength (first == '.') rest) := by
  rw [Lexeme.munch, operatorAt?_eq_none (Or.inr (Or.inl start))]
  exact if_pos start

theorem munch_word
    {first : Char} (start : startsWord first = true) (rest : List Char) :
    Lexeme.munch first rest =
      .ofWord (String.ofList (first :: rest.take (wordLength rest)))
        (wordLength rest) := by
  rw [Lexeme.munch, operatorAt?_eq_none (Or.inl start)]
  simp only [not_startsNumber_of_startsWord start, Bool.false_eq_true, if_false]
  exact if_pos start

theorem munch_raw (rest : List Char) :
    Lexeme.munch '$' rest =
      .token .raw (some (String.ofList (Text.trim rest))) rest.length := by
  rw [Lexeme.munch, operatorAt?_eq_none (Or.inr (Or.inr rfl))]
  rfl

/-- A number is taken as a whole where nothing stands behind it. -/
theorem numberLength_eq_length
    {pointSeen : Bool} {rest : List Char}
    (numeric : ∀ character ∈ rest, startsNumber character = true)
    (points : rest.count '.' + pointSeen.toNat ≤ 1) :
    numberLength pointSeen rest = rest.length := by
  induction rest generalizing pointSeen with
  | nil =>
      rfl
  | cons first rest inductionHypothesis =>
      obtain ⟨start, others⟩ := List.forall_mem_cons.mp numeric
      rw [numberLength, List.length_cons]
      by_cases digit : first.isDigit = true
      · have noPoint : first ≠ '.' := by
          rintro rfl
          cases digit
        rw [List.count_cons_of_ne noPoint] at points
        rw [if_pos digit, inductionHypothesis others points]
      · rw [startsNumber, Bool.eq_false_iff.mpr digit, Bool.false_or,
          beq_iff_eq] at start
        subst start
        rw [List.count_cons_self] at points
        obtain rfl : pointSeen = false := by
          cases pointSeen with
          | false => rfl
          | true => exact absurd points (by simp)
        rw [if_neg digit]
        simp only [beq_self_eq_true, Bool.not_false, Bool.and_self, if_true]
        rw [@inductionHypothesis true others points]

/-- A word is taken as a whole where nothing stands behind it. -/
theorem wordLength_eq_length
    {rest : List Char} (inside : ∀ character ∈ rest, isWordChar character = true) :
    wordLength rest = rest.length := by
  rw [wordLength, ← List.append_nil rest, List.takeWhile_append_of_pos inside]
  rfl

theorem keyword?_of_mem :
    ∀ entry ∈ keywords, keyword? entry.1 = some entry.2 := by
  decide +kernel

theorem keyword?_eq_none
    {word : List Char}
    (noKeyword : ∀ entry ∈ keywords, entry.1.toList ≠ word) :
    keyword? (String.ofList word) = none := by
  rw [keyword?, Option.map_eq_none_iff, List.find?_eq_none]
  intro entry listed same
  rw [beq_iff_eq] at same
  exact noKeyword entry listed (by rw [same, String.toList_ofList])

/-- Keywords are words. -/
theorem word_of_mem_keywords :
    ∀ entry ∈ keywords,
      (∀ first ∈ entry.1.toList.head?, startsWord first = true) ∧
        ∀ character ∈ entry.1.toList.tail, isWordChar character = true := by
  have checked :
      (keywords.all fun entry =>
        entry.1.toList.head?.all startsWord &&
          entry.1.toList.tail.all isWordChar) = true := by
    decide +kernel
  intro entry listed
  have fits := List.all_eq_true.mp checked entry listed
  rw [Bool.and_eq_true] at fits
  refine ⟨?_, List.all_eq_true.mp fits.2⟩
  intro first starts
  have head := fits.1
  rwa [Option.mem_def.mp starts] at head

/-- Alone on its line, a lexeme is taken as a whole. -/
theorem munch_of_takes
    {kind : Kind} {text : Option String} {lexeme : List Char}
    (takes : Takes [] kind text lexeme)
    {first : Char} {rest : List Char} (spelled : lexeme = first :: rest) :
    Lexeme.munch first rest = .token kind text rest.length := by
  cases takes with
  | operator listed =>
      exact munch_operator listed spelled
  | @keyword entry listed =>
      obtain ⟨start, inside⟩ := word_of_mem_keywords entry listed
      rw [spelled] at start inside
      have whole : wordLength rest = rest.length := wordLength_eq_length inside
      rw [munch_word (start first rfl), whole, List.take_length, ← spelled,
        String.ofList_toList, Lexeme.ofWord,
        keyword?_of_mem entry listed]
  | identifier start inside _ noKeyword =>
      obtain ⟨rfl, rfl⟩ := List.cons.inj spelled
      rw [munch_word start, wordLength_eq_length inside, List.take_length,
        Lexeme.ofWord, keyword?_eq_none noKeyword]
  | @number start digits numeric points =>
      obtain ⟨rfl, rfl⟩ := List.cons.inj spelled
      obtain ⟨starts, others⟩ := List.forall_mem_cons.mp numeric
      have whole : numberLength (start == '.') digits = digits.length := by
        refine numberLength_eq_length others ?_
        rw [List.count_cons] at points
        cases isPoint : start == '.' <;> simpa [isPoint] using points
      rw [munch_number starts, whole, List.take_length]
  | raw =>
      obtain ⟨rfl, rfl⟩ := List.cons.inj spelled
      exact munch_raw _

/-! ## Lexemes without blanks -/

theorem solid_of_mem :
    ∀ entry ∈ keywords ++ operators, Solid entry.1 := by
  decide +kernel

/-- Only a raw instruction holds blanks. -/
theorem Takes.solid_or_raw
    {later lexeme : List Char} {kind : Kind} {text : Option String}
    (takes : Takes later kind text lexeme) :
    Solid (String.ofList lexeme) ∨
      kind = .raw ∧ ∃ body, lexeme = '$' :: body := by
  cases takes with
  | operator listed =>
      rw [String.ofList_toList]
      exact Or.inl (solid_of_mem _ (List.mem_append_right _ listed))
  | keyword listed =>
      rw [String.ofList_toList]
      exact Or.inl (solid_of_mem _ (List.mem_append_left _ listed))
  | identifier start inside =>
      refine Or.inl (spelled_cons (Or.inr start) fun character member => ?_).solid
      simp [isSpelling, inside character member]
  | number numeric =>
      obtain ⟨start, others⟩ := List.forall_mem_cons.mp numeric
      refine Or.inl (spelled_cons (Or.inl start) fun character member => ?_).solid
      have digitOrPoint := others character member
      simp only [startsNumber, Bool.or_eq_true] at digitOrPoint
      rcases digitOrPoint with digit | point
      · simp [isSpelling, isWordChar, Char.isAlphanum, digit]
      · simp [isSpelling, point]
  | raw =>
      exact Or.inr ⟨rfl, _, rfl⟩

/-- A lexeme starts with a character that is not blank. -/
theorem Takes.head
    {later lexeme : List Char} {kind : Kind} {text : Option String}
    (takes : Takes later kind text lexeme) :
    ∃ first rest, lexeme = first :: rest ∧ Text.isBlank first = false := by
  rcases takes.solid_or_raw with ⟨some, dark⟩ | ⟨_, body, rfl⟩
  · rw [String.toList_ofList] at dark
    cases lexeme with
    | nil => exact (some rfl).elim
    | cons first rest => exact ⟨first, rest, rfl, dark first List.mem_cons_self⟩
  · exact ⟨_, _, rfl, by decide⟩

/-- Alone on its line, a lexeme is lexed to its token. -/
theorem lexLine_of_takes
    {kind : Kind} {text : Option String} {lexeme : List Char}
    (takes : Takes [] kind text lexeme) (number : Nat) :
    lexLine number lexeme = ⟨[⟨kind, text, ⟨number, 1⟩⟩], none⟩ := by
  obtain ⟨first, rest, rfl, dark⟩ := takes.head
  rw [lexLine, lexFrom, if_neg (Bool.eq_false_iff.mp dark),
    munch_of_takes takes rfl]
  simp only [List.drop_length, lexFrom]
  rfl

/-! ## Descriptions -/

theorem lexeme?_of_mem :
    ∀ entry ∈ keywords ++ operators, entry.2.lexeme? = some entry.1 := by
  decide +kernel

/-- Keywords and operators are described by their spelling. -/
theorem describe_of_mem
    {entry : String × Kind} (listed : entry ∈ keywords ++ operators)
    (text : Option String) (position : Position) :
    describe ⟨entry.2, text, position⟩ = entry.1 := by
  have fixed :
      ∀ entry ∈ keywords ++ operators,
        entry.2 ≠ .identifier ∧ entry.2 ≠ .number ∧ entry.2 ≠ .raw ∧
          entry.2 ≠ .eof := by
    decide
  obtain ⟨noIdentifier, noNumber, noRaw, noEnd⟩ := fixed entry listed
  unfold describe
  split
  · next isIdentifier => exact (noIdentifier isIdentifier).elim
  · next isNumber => exact (noNumber isNumber).elim
  · next isRaw => exact (noRaw isRaw).elim
  · next isEnd => exact (noEnd isEnd).elim
  · rw [lexeme?_of_mem entry listed]
    rfl

/-- The description of a token is a lexeme of this token. -/
theorem takes_describe
    {later lexeme : List Char} {token : Token}
    (takes : Takes later token.kind token.text lexeme) :
    Takes [] token.kind token.text token.describe.toList := by
  obtain ⟨kind, text, position⟩ := token
  cases takes with
  | operator listed =>
      rw [describe_of_mem (List.mem_append_right _ listed)]
      exact .operator listed nofun
  | keyword listed =>
      rw [describe_of_mem (List.mem_append_left _ listed)]
      exact .keyword listed nofun
  | identifier start inside _ noKeyword =>
      simp only [describe, payload, Option.getD_some, String.toList_ofList]
      exact .identifier start inside nofun noKeyword
  | number numeric points =>
      simp only [describe, payload, Option.getD_some, String.toList_ofList]
      exact .number numeric points nofun
  | @raw body =>
      have described :
          (describe ⟨.raw, some (String.ofList (Text.trim body)), position⟩).toList =
            '$' :: Text.trim body := by
        simp [describe, payload, String.toList_append]
      have trimmed :
          Takes [] .raw (some (String.ofList (Text.trim (Text.trim body))))
            ('$' :: Text.trim body) :=
        .raw rfl
      rw [Text.trim_trim] at trimmed
      rw [described]
      exact trimmed

/-- The description of a token of a text stands on one line. -/
theorem oneLine_describe
    {later lexeme : List Char} {token : Token}
    (takes : Takes later token.kind token.text lexeme) (written : token.Written) :
    Text.OneLine token.describe.toList := by
  rcases (takes_describe takes).solid_or_raw with solid | ⟨isRaw, _⟩
  · rw [String.ofList_toList] at solid
    exact solid.oneLine
  · have described : token.describe = "$" ++ token.payload := by
      rw [describe, isRaw]
    rw [described, String.toList_append]
    exact Text.OneLine.append ⟨by decide, by decide⟩ (written.raw isRaw)

/-! ## Lists of tokens -/

/-- Tokens of the kinds and texts of the given ones, each at the start of a line of its
own, of which the first has the number `number`. -/
def oneOnEachLine (number : Nat) (tokens : List Token) : List Token :=
  (tokens.zipIdx number).map fun (token, line) =>
    ⟨token.kind, token.text, ⟨line, 1⟩⟩

/-- The lines of a token list are lexed to its tokens. -/
theorem ofLines_describe
    {tokens : List Token}
    (taken :
      ∀ token ∈ tokens, ∃ later lexeme,
        Takes later token.kind token.text lexeme)
    (line : Nat) :
    Stream.ofLines line (tokens.map fun token => token.describe.toList) =
      ⟨oneOnEachLine (line + 1) tokens,
        .ok (endOfInput ⟨line + tokens.length + 1, 1⟩)⟩ := by
  induction tokens generalizing line with
  | nil =>
      rfl
  | cons first others inductionHypothesis =>
      obtain ⟨⟨later, lexeme, takes⟩, othersTaken⟩ := List.forall_mem_cons.mp taken
      have lexed := lexLine_of_takes (takes_describe takes) (line + 1)
      rw [List.map_cons, Stream.ofLines_cons_of_whole (by rw [lexed]), lexed,
        inductionHypothesis othersTaken]
      have shift : line + 1 + others.length = line + (others.length + 1) := by
        omega
      simp only [oneOnEachLine, List.zipIdx_cons, List.map_cons,
        List.singleton_append, List.length_cons, shift]

/-- The list of the tokens of a text, without the end of the input, is lexed to tokens
of the same kinds and texts in the same order, the first on line one, the second on
line two and so on, and then to the end of the input. -/
theorem token_list_lexed_again
    {source : String} {tokens : List Token} (lexed : tokenize source = .ok tokens) :
    ∃ inner last,
      tokens = inner ++ [last] ∧ last.kind = .eof ∧
        (∀ token ∈ inner, token.kind ≠ .eof) ∧
        tokenize (Text.unlines (inner.map describe)) =
          .ok
            (oneOnEachLine 1 inner ++ [endOfInput ⟨inner.length + 1, 1⟩]) := by
  obtain ⟨last, ended, split⟩ := exists_ending_of_tokenize lexed
  have taken :
      ∀ token ∈ (Stream.ofString source).tokens, ∃ later lexeme,
        Takes later token.kind token.text lexeme := by
    intro token member
    obtain ⟨_, _, _, _, first, rest, extra, _, munched⟩ :=
      exists_line_of_mem_ofLines member
    exact ⟨_, _, (takes_of_munch munched).2⟩
  have oneLines :
      ∀ text ∈ (Stream.ofString source).tokens.map describe,
        Text.OneLine text.toList := by
    intro text member
    obtain ⟨token, inside, rfl⟩ := List.mem_map.mp member
    obtain ⟨_, _, takes⟩ := taken token inside
    exact oneLine_describe takes (written_ofString source token inside)
  refine ⟨_, last, split, ?_, ?_, ?_⟩
  · exact Stream.kind_of_ending_ofLines ended
  · exact fun token member => kind_ne_eof_of_mem member
  · have listed := ofLines_describe taken 0
    rw [Nat.zero_add, Nat.zero_add] at listed
    rw [tokenize, Stream.ofString, Text.lines_unlines oneLines, List.map_map]
    simp only [Function.comp_def, listed]
    rfl

/-- Points without digits, operators that touch each other, a keyword, and raw
instructions with a hash sign, a dollar sign and a carriage return inside or with
nothing at all. -/
theorem token_list_lexed_again_of_raw_instructions :
    ∃ tokens inner last,
      tokenize "if .5**-.<<=@a\n$ \u3000 say #\r$ \u00a0\r\n$\n" = .ok tokens ∧
        tokens = inner ++ [last] ∧
        inner.map describe =
          ["if", ".5", "**", "-", ".", "<<", "=", "@a", "$say #\r$", "$"] ∧
        tokenize (Text.unlines (inner.map describe)) =
          .ok (oneOnEachLine 1 inner ++ [endOfInput ⟨inner.length + 1, 1⟩]) := by
  obtain ⟨tokens, lexed, listed⟩ :=
    exists_ok_of_any
      (show
        ((tokenize "if .5**-.<<=@a\n$ \u3000 say #\r$ \u00a0\r\n$\n").toOption.any
          fun tokens =>
            decide
              (tokens.dropLast.map describe =
                ["if", ".5", "**", "-", ".", "<<", "=", "@a", "$say #\r$",
                  "$"])) =
          true by
        decide +kernel)
  obtain ⟨inner, last, split, _, _, again⟩ := token_list_lexed_again lexed
  refine ⟨tokens, inner, last, lexed, split, ?_, again⟩
  rw [split, List.dropLast_concat] at listed
  exact of_decide_eq_true listed

end FlatCode.Token
