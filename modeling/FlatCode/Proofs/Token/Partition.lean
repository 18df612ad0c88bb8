import FlatCode.Proofs.Lockstep.BrokenLine

/-!
# Lines taken apart

A line is a gap, a lexeme, a gap, a lexeme and so on, with a gap at its end that may
be followed by a comment.  The gaps are blank.  The lexemes spell the tokens of the
line, each token carries the column where its lexeme starts, and each lexeme is as
long as it can be:

* an operator with the next character behind it is no operator;
* behind a word stands no letter, digit or underscore;
* behind a number stands no digit, and no point unless the number has its point;
* a raw instruction takes everything up to the end of the line.

In a broken line this holds of the characters before the one that starts no lexeme.
-/

namespace FlatCode.Token

/-! ## Lexemes -/

/-- The characters that a token of a kind and a text takes in a line when `later`
stands behind them. -/
inductive Takes (later : List Char) : Kind → Option String → List Char → Prop
  | operator {entry : String × Kind} (listed : entry ∈ operators)
      (longest :
        ∀ next ∈ later.head?, ∀ other ∈ operators,
          other.1.toList ≠ entry.1.toList ++ [next]) :
      Takes later entry.2 none entry.1.toList
  | keyword {entry : String × Kind} (listed : entry ∈ keywords)
      (ended : ∀ next ∈ later.head?, isWordChar next = false) :
      Takes later entry.2 none entry.1.toList
  | identifier {first : Char} {word : List Char}
      (start : startsWord first = true)
      (inside : ∀ character ∈ word, isWordChar character = true)
      (ended : ∀ next ∈ later.head?, isWordChar next = false)
      (noKeyword : ∀ entry ∈ keywords, entry.1.toList ≠ first :: word) :
      Takes later .identifier (some (String.ofList (first :: word)))
        (first :: word)
  | number {first : Char} {digits : List Char}
      (numeric : ∀ character ∈ first :: digits, startsNumber character = true)
      (points : (first :: digits).count '.' ≤ 1)
      (ended :
        ∀ next ∈ later.head?,
          next.isDigit = false ∧ ('.' ∉ first :: digits → next ≠ '.')) :
      Takes later .number (some (String.ofList (first :: digits)))
        (first :: digits)
  | raw {body : List Char} (ended : later = []) :
      Takes later .raw (some (String.ofList (Text.trim body))) ('$' :: body)

/-- The character starts no gap, no lexeme and no comment. -/
structure StartsNothing (character : Char) : Prop where
  blank : Text.isBlank character = false
  operator : ∀ entry ∈ operators, entry.1.toList.head? ≠ some character
  number : startsNumber character = false
  word : startsWord character = false
  raw : character ≠ '$'
  comment : character ≠ '#'

/-! ## Operators -/

/-- The longer spellings stand first. -/
theorem operators_sorted :
    operators.Pairwise fun early late => late.1.length ≤ early.1.length := by
  decide

/-- The first character of an operator is an operator itself. -/
theorem first_mem_operators :
    ∀ entry ∈ operators, ∃ short ∈ operators,
      short.1.toList = entry.1.toList.take 1 := by
  decide

/-- No operator that fits is longer than the one that is found. -/
theorem operatorAt?_longest
    {text : List Char} {found : String × Kind}
    (here : operatorAt? text = some found)
    {entry : String × Kind} (listed : entry ∈ operators)
    (fits : entry.1.toList <+: text) :
    entry.1.length ≤ found.1.length := by
  obtain ⟨_, early, late, split, skipped⟩ := List.find?_eq_some_iff_append.mp here
  have sorted := operators_sorted
  rw [split] at listed sorted
  obtain ⟨_, behind, _⟩ := List.pairwise_append.mp sorted
  rcases List.mem_append.mp listed with before | after
  · have refused := skipped entry before
    rw [List.isPrefixOf_iff_prefix.mpr fits] at refused
    cases refused
  · rcases List.mem_cons.mp after with rfl | later
    · exact Nat.le_refl _
    · exact (List.pairwise_cons.mp behind).1 entry later

theorem takes_operator
    {first : Char} {rest : List Char} {found : String × Kind}
    (here : operatorAt? (first :: rest) = some found) :
    found.1.length - 1 ≤ rest.length ∧
      Takes (rest.drop (found.1.length - 1)) found.2 none
        (first :: rest.take (found.1.length - 1)) := by
  have listed : found ∈ operators := List.mem_of_find?_eq_some here
  have fits : found.1.toList <+: first :: rest := by
    have passes := List.find?_some here
    exact List.isPrefixOf_iff_prefix.mp passes
  have long : found.1.length = found.1.length - 1 + 1 := by
    have positive : ∀ entry ∈ operators, 0 < entry.1.length := by decide
    have := positive found listed
    omega
  have taken : first :: rest.take (found.1.length - 1) = found.1.toList := by
    rw [← List.take_succ_cons, ← long, ← String.length_toList]
    exact (List.prefix_iff_eq_take.mp fits).symm
  have bound := fits.length_le
  rw [String.length_toList, List.length_cons] at bound
  refine ⟨by omega, ?_⟩
  rw [taken]
  refine .operator listed fun next follows other member longer => ?_
  -- A longer operator would have been found in its place.
  obtain ⟨later, behind⟩ := List.head?_eq_some_iff.mp follows
  have whole : found.1.toList ++ next :: later = first :: rest := by
    rw [← taken, ← behind, List.cons_append, List.take_append_drop]
  have short :=
    operatorAt?_longest here member
      ⟨later, by rw [longer, ← whole, List.append_assoc]; rfl⟩
  rw [← String.length_toList, longer, List.length_append,
    String.length_toList] at short
  exact Nat.not_succ_le_self _ short

/-- Where no operator is found, none starts with the next character. -/
theorem head_ne_of_operatorAt?_none
    {first : Char} {rest : List Char}
    (here : operatorAt? (first :: rest) = none) :
    ∀ entry ∈ operators, entry.1.toList.head? ≠ some first := by
  intro entry member starts
  obtain ⟨later, spelled⟩ := List.head?_eq_some_iff.mp starts
  obtain ⟨short, listed, single⟩ := first_mem_operators entry member
  have refused := List.find?_eq_none.mp here short listed
  rw [single, spelled] at refused
  simp at refused

/-! ## Numbers and words -/

/-- What `numberLength` counts: digits and at most one point, as many as there are. -/
theorem numberLength_spec
    (pointSeen : Bool) (rest : List Char) :
    numberLength pointSeen rest ≤ rest.length ∧
      (∀ character ∈ rest.take (numberLength pointSeen rest),
        startsNumber character = true) ∧
      (rest.take (numberLength pointSeen rest)).count '.' + pointSeen.toNat ≤ 1 ∧
      ∀ next ∈ (rest.drop (numberLength pointSeen rest)).head?,
        next.isDigit = false ∧
          (pointSeen = false → '.' ∉ rest.take (numberLength pointSeen rest) →
            next ≠ '.') := by
  induction rest generalizing pointSeen with
  | nil =>
      simp [numberLength, Bool.toNat_le]
  | cons first rest inductionHypothesis =>
      rw [numberLength]
      split
      · next digit =>
          have noPoint : first ≠ '.' := by
            rintro rfl
            cases digit
          obtain ⟨short, numeric, points, stops⟩ := inductionHypothesis pointSeen
          rw [List.take_succ_cons, List.drop_succ_cons,
            List.count_cons_of_ne noPoint]
          refine ⟨Nat.succ_le_succ short, ?_, points, ?_⟩
          · exact
              List.forall_mem_cons.mpr ⟨by simp [startsNumber, digit], numeric⟩
          · intro next follows
            obtain ⟨noDigit, onlyPoint⟩ := stops next follows
            exact
              ⟨noDigit, fun unseen none =>
                onlyPoint unseen fun member => none (List.mem_cons_of_mem _ member)⟩
      · next noDigit =>
          split
          · next point =>
              simp only [Bool.and_eq_true, beq_iff_eq, Bool.not_eq_true'] at point
              obtain ⟨rfl, rfl⟩ := point
              obtain ⟨short, numeric, points, stops⟩ := inductionHypothesis true
              rw [List.take_succ_cons, List.drop_succ_cons, List.count_cons_self]
              refine ⟨Nat.succ_le_succ short, ?_, points, ?_⟩
              · exact List.forall_mem_cons.mpr ⟨rfl, numeric⟩
              · intro next follows
                exact
                  ⟨(stops next follows).1,
                    fun _ none => (none List.mem_cons_self).elim⟩
          · next noPoint =>
              simp only [Bool.and_eq_true, beq_iff_eq, Bool.not_eq_true',
                not_and] at noPoint
              refine ⟨Nat.zero_le _, by simp, by simp [Bool.toNat_le], ?_⟩
              rintro next ⟨⟩
              refine ⟨Bool.eq_false_iff.mpr noDigit, fun unseen _ isPoint => ?_⟩
              exact noPoint isPoint unseen

theorem takes_number
    {first : Char} {rest : List Char} (start : startsNumber first = true) :
    numberLength (first == '.') rest ≤ rest.length ∧
      Takes (rest.drop (numberLength (first == '.') rest)) .number
        (some
          (String.ofList (first :: rest.take (numberLength (first == '.') rest))))
        (first :: rest.take (numberLength (first == '.') rest)) := by
  obtain ⟨short, numeric, points, stops⟩ := numberLength_spec (first == '.') rest
  refine ⟨short, .number (List.forall_mem_cons.mpr ⟨start, numeric⟩) ?_ ?_⟩
  · rw [List.count_cons]
    cases isPoint : first == '.' <;> simpa [isPoint] using points
  · intro next follows
    obtain ⟨noDigit, onlyPoint⟩ := stops next follows
    refine ⟨noDigit, fun none => ?_⟩
    rw [List.mem_cons, not_or] at none
    exact onlyPoint (by simpa using Ne.symm none.1) none.2

/-- What `wordLength` counts: the characters of a word, as many as there are. -/
theorem wordLength_spec (rest : List Char) :
    wordLength rest ≤ rest.length ∧
      (∀ character ∈ rest.take (wordLength rest), isWordChar character = true) ∧
      ∀ next ∈ (rest.drop (wordLength rest)).head?, isWordChar next = false := by
  have taken : rest.take (wordLength rest) = rest.takeWhile isWordChar :=
    (List.prefix_iff_eq_take.mp (List.takeWhile_prefix isWordChar)).symm
  have dropped : rest.drop (wordLength rest) = rest.dropWhile isWordChar := by
    refine (List.append_right_inj (rest.takeWhile isWordChar)).mp ?_
    rw [List.takeWhile_append_dropWhile, ← taken, List.take_append_drop]
  refine ⟨(List.takeWhile_prefix isWordChar).length_le, ?_, ?_⟩
  · rw [taken]
    exact List.all_eq_true.mp List.all_takeWhile
  · rw [dropped]
    intro next follows
    have stopped := List.head?_dropWhile_not isWordChar rest
    rw [follows] at stopped
    simpa using stopped

theorem takes_word
    {first : Char} {rest : List Char} (start : startsWord first = true)
    {kind : Kind} {text : Option String} {extra : Nat}
    (lexed :
      Lexeme.ofWord (String.ofList (first :: rest.take (wordLength rest)))
        (wordLength rest) = .token kind text extra) :
    extra ≤ rest.length ∧
      Takes (rest.drop extra) kind text (first :: rest.take extra) := by
  obtain ⟨short, inside, stops⟩ := wordLength_spec rest
  unfold Lexeme.ofWord at lexed
  split at lexed
  · next keyword found =>
      cases lexed
      obtain ⟨entry, member, rfl⟩ := Option.map_eq_some_iff.mp found
      have word : entry.1.toList = first :: rest.take (wordLength rest) := by
        have spelled := List.find?_some member
        rw [eq_of_beq spelled, String.toList_ofList]
      refine ⟨short, ?_⟩
      rw [← word]
      exact .keyword (List.mem_of_find?_eq_some member) stops
  · next noKeyword =>
      cases lexed
      refine ⟨short, .identifier start inside stops fun entry member spelled => ?_⟩
      have refused :=
        List.find?_eq_none.mp (Option.map_eq_none_iff.mp noKeyword) entry member
      rw [← spelled, String.ofList_toList] at refused
      exact refused (beq_self_eq_true _)

/-! ## One lexeme -/

theorem takes_of_munch
    {first : Char} {rest : List Char}
    {kind : Kind} {text : Option String} {extra : Nat}
    (lexed : Lexeme.munch first rest = .token kind text extra) :
    extra ≤ rest.length ∧
      Takes (rest.drop extra) kind text (first :: rest.take extra) := by
  unfold Lexeme.munch at lexed
  split at lexed
  · next spelling operator found =>
      cases lexed
      exact takes_operator found
  · split at lexed
    · next number =>
        cases lexed
        exact takes_number number
    · split at lexed
      · next word =>
          exact takes_word word lexed
      · split at lexed
        · next dollar =>
            cases lexed
            obtain rfl := eq_of_beq dollar
            rw [List.take_length, List.drop_length]
            exact ⟨Nat.le_refl _, .raw rfl⟩
        · split at lexed <;> cases lexed

theorem kind_ne_eof_of_takes
    {later taken : List Char} {kind : Kind} {text : Option String}
    (takes : Takes later kind text taken) :
    kind ≠ .eof := by
  have noOperator : ∀ entry ∈ operators, entry.2 ≠ .eof := by decide
  have noKeyword : ∀ entry ∈ keywords, entry.2 ≠ .eof := by decide
  cases takes with
  | operator listed => exact noOperator _ listed
  | keyword listed => exact noKeyword _ listed
  | identifier | number | raw => nofun

/-- No token of a line ends the input. -/
theorem kind_ne_eof_of_mem
    {source : String} {token : Token}
    (member : token ∈ (Stream.ofString source).tokens) :
    token.kind ≠ .eof := by
  obtain ⟨_, _, _, _, occurs⟩ := exists_line_of_mem_ofLines member
  obtain ⟨_, _, _, _, lexed⟩ := occurs
  exact kind_ne_eof_of_takes (takes_of_munch lexed).2

theorem ofWord_eq_token (word : String) (extra : Nat) :
    ∃ kind text, Lexeme.ofWord word extra = .token kind text extra := by
  unfold Lexeme.ofWord
  split
  · exact ⟨_, _, rfl⟩
  · exact ⟨_, _, rfl⟩

/-- Where there is no lexeme, there is a comment or a character that starts nothing. -/
theorem munch_cases
    {first : Char} (rest : List Char) (dark : ¬Text.isBlank first = true) :
    (∃ kind text extra, Lexeme.munch first rest = .token kind text extra) ∨
      (Lexeme.munch first rest = .comment ∧ first = '#') ∨
      (Lexeme.munch first rest = .invalid ∧ StartsNothing first) := by
  unfold Lexeme.munch
  split
  · exact Or.inl ⟨_, _, _, rfl⟩
  · next noOperator =>
      split
      · exact Or.inl ⟨_, _, _, rfl⟩
      · next noNumber =>
          split
          · obtain ⟨kind, text, lexed⟩ := ofWord_eq_token
              (String.ofList (first :: rest.take (wordLength rest)))
              (wordLength rest)
            exact Or.inl ⟨kind, text, _, lexed⟩
          · next noWord =>
              split
              · exact Or.inl ⟨_, _, _, rfl⟩
              · next noDollar =>
                  split
                  · next hash =>
                      exact Or.inr (Or.inl ⟨rfl, eq_of_beq hash⟩)
                  · next noHash =>
                      exact
                        Or.inr
                          (Or.inr
                            ⟨rfl, Bool.eq_false_iff.mpr dark,
                              head_ne_of_operatorAt?_none noOperator,
                              Bool.eq_false_iff.mpr noNumber,
                              Bool.eq_false_iff.mpr noWord,
                              fun equal => noDollar (beq_iff_eq.mpr equal),
                              fun equal => noHash (beq_iff_eq.mpr equal)⟩)

/-! ## One line -/

/-- From the given column of a line on, the characters before `rest` are gaps and the
lexemes of the given tokens in turn. -/
inductive Parts (number : Nat) (rest : List Char) :
    Nat → List Char → List Token → Prop
  | gap {column : Nat} {gap : List Char}
      (blank : ∀ character ∈ gap, Text.isBlank character = true) :
      Parts number rest column gap []
  | token {column : Nat} (gap : List Char) {lexeme later : List Char}
      {kind : Kind} {text : Option String} {tokens : List Token}
      (blank : ∀ character ∈ gap, Text.isBlank character = true)
      (takes : Takes (later ++ rest) kind text lexeme)
      (parts :
        Parts number rest (column + gap.length + lexeme.length) later tokens) :
      Parts number rest column (gap ++ lexeme ++ later)
        (⟨kind, text, ⟨number, column + gap.length⟩⟩ :: tokens)

theorem Parts.empty
    {number column : Nat} {rest : List Char} : Parts number rest column [] [] :=
  .gap (List.forall_mem_nil _)

theorem Parts.cons_blank
    {number column : Nat} {rest front : List Char} {tokens : List Token}
    {first : Char} (blank : Text.isBlank first = true)
    (parts : Parts number rest (column + 1) front tokens) :
    Parts number rest column (first :: front) tokens := by
  cases parts with
  | gap blanks =>
      exact .gap (List.forall_mem_cons.mpr ⟨blank, blanks⟩)
  | token gap blanks takes parts =>
      have shift :
          column + 1 + gap.length = column + (first :: gap).length := by
        rw [List.length_cons]
        omega
      rw [shift] at parts ⊢
      exact .token _ (List.forall_mem_cons.mpr ⟨blank, blanks⟩) takes parts

theorem Parts.cons_lexeme
    {number column : Nat} {rest lexeme front : List Char} {tokens : List Token}
    {kind : Kind} {text : Option String}
    (takes : Takes (front ++ rest) kind text lexeme)
    (parts : Parts number rest (column + lexeme.length) front tokens) :
    Parts number rest column (lexeme ++ front)
      (⟨kind, text, ⟨number, column⟩⟩ :: tokens) :=
  .token [] (List.forall_mem_nil _) takes parts

/-- What stands behind the tokens of a line, at the given column: nothing or a comment,
and in a broken line the character that starts nothing. -/
def StopsAt (invalid : Option Nat) (column : Nat) (rest : List Char) : Prop :=
  match invalid with
  | none => rest = [] ∨ ∃ comment, rest = '#' :: comment
  | some found =>
      found = column ∧ ∃ bad later, rest = bad :: later ∧ StartsNothing bad

/-- The tokens of a line take it apart up to the place where lexing stops. -/
theorem parts_lexFrom
    (number column : Nat) (line : List Char) :
    ∃ front rest,
      line = front ++ rest ∧
        Parts number rest column front (lexFrom number column line).tokens ∧
        StopsAt (lexFrom number column line).invalid (column + front.length)
          rest := by
  induction column, line using lexFrom.induct with
  | case1 column =>
      rw [lexFrom]
      exact ⟨[], [], rfl, .empty, Or.inl rfl⟩
  | case2 column first rest blank inductionHypothesis =>
      obtain ⟨front, behind, rfl, parts, stops⟩ := inductionHypothesis
      rw [lexFrom, if_pos blank]
      refine ⟨first :: front, behind, rfl, parts.cons_blank blank, ?_⟩
      rwa [List.length_cons, Nat.add_comm front.length, ← Nat.add_assoc]
  | case3 column first rest dark kind text extra lexed inductionHypothesis =>
      obtain ⟨front, behind, split, parts, stops⟩ := inductionHypothesis
      obtain ⟨fits, takes⟩ := takes_of_munch lexed
      rw [lexFrom, if_neg dark, lexed]
      have long :
          column + (first :: rest.take extra).length = column + 1 + extra := by
        rw [List.length_cons, List.length_take, Nat.min_eq_left fits]
        omega
      refine ⟨first :: rest.take extra ++ front, behind, ?_, ?_, ?_⟩
      · rw [List.append_assoc, ← split, List.cons_append, List.take_append_drop]
      · rw [split] at takes
        exact .cons_lexeme takes (long ▸ parts)
      · rwa [List.length_append, ← Nat.add_assoc, long]
  | case4 column first rest dark lexed =>
      rw [lexFrom, if_neg dark, lexed]
      have hash : first = '#' := by
        rcases munch_cases rest dark with
          ⟨_, _, _, other⟩ | ⟨_, hash⟩ | ⟨other, _⟩
        · cases lexed.symm.trans other
        · exact hash
        · cases lexed.symm.trans other
      exact ⟨[], first :: rest, rfl, .empty, Or.inr ⟨rest, by rw [hash]⟩⟩
  | case5 column first rest dark lexed =>
      rw [lexFrom, if_neg dark, lexed]
      have bad : StartsNothing first := by
        rcases munch_cases rest dark with
          ⟨_, _, _, other⟩ | ⟨other, _⟩ | ⟨_, bad⟩
        · cases lexed.symm.trans other
        · cases lexed.symm.trans other
        · exact bad
      exact ⟨[], first :: rest, rfl, .empty, rfl, first, rest, rfl, bad⟩

/-- A whole line: its tokens, and behind them nothing or a comment. -/
def Divided (number : Nat) (line : List Char) (tokens : List Token) : Prop :=
  ∃ front rest,
    line = front ++ rest ∧ (rest = [] ∨ ∃ comment, rest = '#' :: comment) ∧
      Parts number rest 1 front tokens

theorem divided_lexLine
    {number : Nat} {line : List Char}
    (whole : (lexLine number line).invalid = none) :
    Divided number line (lexLine number line).tokens := by
  obtain ⟨front, rest, split, parts, stops⟩ := parts_lexFrom number 1 line
  rw [show (lexFrom number 1 line).invalid = none from whole] at stops
  exact ⟨front, rest, split, stops, parts⟩

/-! ## The lines of a text -/

def onLine (number : Nat) (tokens : List Token) : List Token :=
  tokens.filter fun token => token.position.line = number

theorem onLine_append (number : Nat) (front back : List Token) :
    onLine number (front ++ back) = onLine number front ++ onLine number back :=
  List.filter_append ..

theorem onLine_eq_self
    {number : Nat} {tokens : List Token}
    (here : ∀ token ∈ tokens, token.position.line = number) :
    onLine number tokens = tokens :=
  List.filter_eq_self.mpr fun token member =>
    decide_eq_true (here token member)

theorem onLine_eq_nil
    {number : Nat} {tokens : List Token}
    (elsewhere : ∀ token ∈ tokens, token.position.line ≠ number) :
    onLine number tokens = [] :=
  List.filter_eq_nil_iff.mpr fun token member =>
    mt of_decide_eq_true (elsewhere token member)

theorem line_of_mem_lexLine
    {number : Nat} {line : List Char} {token : Token}
    (member : token ∈ (lexLine number line).tokens) :
    token.position.line = number :=
  (occursIn_of_mem_lexFrom member).1

/-- Where no line is broken, each line is taken apart into the tokens on it. -/
theorem divided_ofLines
    {start : Nat} {lines : List (List Char)} {last : Token}
    (whole : (Stream.ofLines start lines).ending = .ok last)
    {index : Nat} {line : List Char} (found : lines[index]? = some line) :
    Divided (start + index + 1) line
      (onLine (start + index + 1) (Stream.ofLines start lines).tokens) := by
  induction lines generalizing start index with
  | nil =>
      cases found
  | cons text later inductionHypothesis =>
      cases broken : (lexLine (start + 1) text).invalid with
      | some column =>
          rw [Stream.ofLines_cons_of_broken broken] at whole
          cases whole
      | none =>
          rw [Stream.ofLines_cons_of_whole broken] at whole ⊢
          rw [onLine_append]
          cases index with
          | zero =>
              cases found
              rw [onLine_eq_self fun token => line_of_mem_lexLine,
                onLine_eq_nil, List.append_nil]
              · exact divided_lexLine broken
              · intro token member
                obtain ⟨index, _, _, numbered, _⟩ :=
                  exists_line_of_mem_ofLines member
                omega
          | succ index =>
              rw [onLine_eq_nil, List.nil_append]
              · have shift : start + (index + 1) + 1 = start + 1 + index + 1 := by
                  omega
                rw [shift]
                exact inductionHypothesis whole found
              · intro token member
                rw [line_of_mem_lexLine member]
                omega

/-- The end of the input stands behind all lines. -/
theorem ending_line
    {start : Nat} {lines : List (List Char)} {last : Token}
    (whole : (Stream.ofLines start lines).ending = .ok last) :
    last.position.line = start + lines.length + 1 := by
  induction lines generalizing start with
  | nil =>
      cases whole
      rfl
  | cons text later inductionHypothesis =>
      cases broken : (lexLine (start + 1) text).invalid with
      | some column =>
          rw [Stream.ofLines_cons_of_broken broken] at whole
          cases whole
      | none =>
          rw [Stream.ofLines_cons_of_whole broken] at whole
          rw [inductionHypothesis whole, List.length_cons]
          omega

/-- Every line of a text that is lexed is taken apart into the tokens on it.  In a text
that is not lexed this holds of all lines before the reported one and of the characters
before the reported one, which starts nothing. -/
theorem lines_divided_into_tokens (source : String) :
    (∀ tokens, tokenize source = .ok tokens →
      ∀ index line, (Text.lines source.toList)[index]? = some line →
        Divided (index + 1) line (onLine (index + 1) tokens)) ∧
    ∀ report, tokenize source = .error report →
      ∃ before front bad after later,
        Text.lines source.toList = before ++ (front ++ bad :: after) :: later ∧
          report =
            Fault.invalidToken.reportAt ⟨before.length + 1, front.length + 1⟩ ∧
          (∀ index line, before[index]? = some line →
            Divided (index + 1) line
              (onLine (index + 1) (Stream.ofString source).tokens)) ∧
          Parts (before.length + 1) (bad :: after) 1 front
            (lexLine (before.length + 1) (front ++ bad :: after)).tokens ∧
          StartsNothing bad := by
  refine ⟨fun tokens lexed index line found => ?_, fun report failed => ?_⟩
  · obtain ⟨last, whole, rfl⟩ := exists_ending_of_tokenize lexed
    have inside : index < (Text.lines source.toList).length :=
      (List.getElem?_eq_some_iff.mp found).1
    have behind : onLine (index + 1) [last] = [] := by
      refine onLine_eq_nil fun token member => ?_
      rw [List.mem_singleton.mp member, ending_line whole]
      omega
    have divided := divided_ofLines whole found
    rw [Nat.zero_add] at divided
    rw [onLine_append, behind, List.append_nil]
    exact divided
  · obtain ⟨before, broken, later, last, column, split, whole, invalid, rfl⟩ :=
      Stream.exists_broken_of_ending (ending_of_tokenize_error failed)
    have stream := Stream.ofLines_of_broken whole invalid later
    rw [Nat.zero_add] at invalid stream ⊢
    obtain ⟨front, rest, rfl, parts, stops⟩ :=
      parts_lexFrom (before.length + 1) 1 broken
    rw [show (lexFrom (before.length + 1) 1 (front ++ rest)).invalid = some column
      from invalid] at stops
    obtain ⟨rfl, bad, after, rfl, startsNothing⟩ := stops
    refine ⟨before, front, bad, after, later, split, ?_, ?_, parts, startsNothing⟩
    · rw [Nat.add_comm 1]
    · intro index line found
      have divided := divided_ofLines whole found
      rw [Nat.zero_add] at divided
      rw [Stream.ofString, split, stream]
      exact divided

/-- Lexemes that touch each other, and a line that is broken at its fourth
character. -/
theorem lines_divided_into_tokens_of_adjacent_lexemes :
    (∃ tokens,
      tokenize "a@b===1.5.2 # c" = .ok tokens ∧ tokens.length = 7 ∧
        Divided 1 "a@b===1.5.2 # c".toList (onLine 1 tokens)) ∧
      ∃ before front bad after later,
        Text.lines "a\n b ?".toList = before ++ (front ++ bad :: after) :: later ∧
          before.length = 1 ∧ front.length = 3 ∧ StartsNothing bad := by
  constructor
  · obtain ⟨tokens, lexed, seven⟩ :=
      exists_ok_of_any
        (show ((tokenize "a@b===1.5.2 # c").toOption.any fun tokens =>
            decide (tokens.length = 7)) = true by
          decide +kernel)
    exact
      ⟨tokens, lexed, of_decide_eq_true seven,
        (lines_divided_into_tokens "a@b===1.5.2 # c").1 tokens lexed 0 _
          (by decide +kernel)⟩
  · have failed :
        tokenize "a\n b ?" = .error ⟨.lexical, "Invalid token.", ⟨2, 4⟩⟩ :=
      eq_error_of_fails (by decide +kernel)
    obtain ⟨before, front, bad, after, later, split, reported, _, _, bare⟩ :=
      (lines_divided_into_tokens "a\n b ?").2 _ failed
    injection congrArg Diagnostic.position reported with line column
    exact
      ⟨before, front, bad, after, later, split, by omega, by omega, bare⟩

end FlatCode.Token
