import FlatCode.Proofs.Grammar.Accepted
import FlatCode.Proofs.Lockstep.Program
import FlatCode.Proofs.Token.Origin

/-!
# Reading up to a broken line

A text is read as far as its first broken line and not beyond.  The lines before
that line decide what happens: either a fault is found in them and reported, or
the report of the broken line is met.  What stands in the broken line and behind it
makes no difference, apart from the column of that report.

The argument runs two readings in step.  They have the same tokens, those of the
lines before, and each has its own report behind them.
-/

namespace FlatCode

open Token (Pairing Stream lexLine tokenize)

/-! ## The stream of a text with a broken line -/

namespace Token.Stream

/-- The tokens of the lines before a broken line, and the report of that line. -/
theorem ofLines_of_broken
    {line column : Nat} {before : List (List Char)} {text : List Char}
    {last : Token} (whole : (ofLines line before).ending = .ok last)
    (broken : (lexLine (line + before.length + 1) text).invalid = some column)
    (later : List (List Char)) :
    ofLines line (before ++ text :: later) =
      ⟨(ofLines line before).tokens,
        .error
          (Fault.invalidToken.reportAt ⟨line + before.length + 1, column⟩)⟩ := by
  induction before generalizing line with
  | nil =>
      rw [List.length_nil, Nat.add_zero] at broken ⊢
      exact ofLines_cons_of_broken broken later
  | cons first others inductionHypothesis =>
      have shift :
          line + (first :: others).length + 1 =
            line + 1 + others.length + 1 := by
        rw [List.length_cons]
        omega
      rw [shift] at broken ⊢
      rw [List.cons_append]
      cases found : (lexLine (line + 1) first).invalid with
      | some invalid =>
          rw [ofLines_cons_of_broken found] at whole
          cases whole
      | none =>
          rw [ofLines_cons_of_whole found] at whole
          rw [ofLines_cons_of_whole found, ofLines_cons_of_whole found,
            inductionHypothesis whole broken]

/-- A report behind the tokens is that of a broken line, with no broken line
before it. -/
theorem exists_broken_of_ending
    {line : Nat} {lines : List (List Char)} {report : Diagnostic}
    (ended : (ofLines line lines).ending = .error report) :
    ∃ before text later last column,
      lines = before ++ text :: later ∧
        (ofLines line before).ending = .ok last ∧
        (lexLine (line + before.length + 1) text).invalid = some column ∧
        report =
          Fault.invalidToken.reportAt ⟨line + before.length + 1, column⟩ := by
  induction lines generalizing line with
  | nil =>
      cases ended
  | cons text later inductionHypothesis =>
      cases found : (lexLine (line + 1) text).invalid with
      | some column =>
          rw [ofLines_cons_of_broken found] at ended
          cases ended
          exact
            ⟨[], text, later, endOfInput ⟨line + 1, 1⟩, column, rfl, rfl,
              found, rfl⟩
      | none =>
          rw [ofLines_cons_of_whole found] at ended
          obtain ⟨before, broken, behind, last, column, rfl, whole, invalid,
            rfl⟩ := inductionHypothesis ended
          have shift :
              line + 1 + before.length + 1 =
                line + (text :: before).length + 1 := by
            rw [List.length_cons]
            omega
          rw [shift] at invalid ⊢
          refine
            ⟨text :: before, broken, behind, last, column, rfl, ?_, invalid,
              rfl⟩
          rw [ofLines_cons_of_whole found]
          exact whole

end Token.Stream

/-- The lines of a text before the line with a given number. -/
def linesBefore (text : String) (number : Nat) : List (List Char) :=
  (Text.lines text.toList).take (number - 1)

/-- The line of a text with a given number is there, and it is broken. -/
def BrokenAt (text : String) (number : Nat) : Prop :=
  ∃ line column,
    (Text.lines text.toList)[number - 1]? = some line ∧
      (lexLine number line).invalid = some column

/-- The stream of a text that is known up to a broken line. -/
theorem ofString_of_brokenAt
    {text : String} {before : List (List Char)} {last : Token}
    (whole : (Stream.ofLines 0 before).ending = .ok last)
    (known : linesBefore text (before.length + 1) = before)
    (broken : BrokenAt text (before.length + 1)) :
    ∃ column,
      Stream.ofString text =
        ⟨(Stream.ofLines 0 before).tokens,
          .error
            (Fault.invalidToken.reportAt ⟨before.length + 1, column⟩)⟩ := by
  obtain ⟨line, column, found, invalid⟩ := broken
  rw [linesBefore] at known
  rw [Nat.add_sub_cancel] at known found
  obtain ⟨inside, rfl⟩ := List.getElem?_eq_some_iff.mp found
  have split :
      Text.lines text.toList =
        before ++
          (Text.lines text.toList)[before.length] ::
            (Text.lines text.toList).drop (before.length + 1) := by
    nth_rewrite 1 [← List.take_append_drop before.length
      (Text.lines text.toList)]
    rw [known, List.drop_eq_getElem_cons inside]
  have numbered : before.length + 1 = 0 + before.length + 1 := by omega
  rw [numbered] at invalid ⊢
  refine ⟨column, ?_⟩
  rw [Stream.ofString, split]
  exact Stream.ofLines_of_broken whole invalid _

/-- A text that is not lexed is known up to its first broken line. -/
theorem exists_broken_of_tokenize
    {text : String} {report : Diagnostic}
    (failed : tokenize text = .error report) :
    ∃ before last column,
      (Stream.ofLines 0 before).ending = .ok last ∧
        linesBefore text (before.length + 1) = before ∧
        BrokenAt text (before.length + 1) ∧
        report =
          Fault.invalidToken.reportAt ⟨before.length + 1, column⟩ ∧
        Stream.ofString text =
          ⟨(Stream.ofLines 0 before).tokens, .error report⟩ := by
  obtain ⟨before, broken, later, last, column, split, whole, invalid, shown⟩ :=
    Stream.exists_broken_of_ending (Token.ending_of_tokenize_error failed)
  have stream := Stream.ofLines_of_broken whole invalid later
  have numbered : 0 + before.length + 1 = before.length + 1 := by omega
  rw [← split, ← shown] at stream
  rw [numbered] at invalid shown
  refine
    ⟨before, last, column, whole, ?_, ⟨broken, column, ?_, invalid⟩, shown,
      stream⟩
  · rw [linesBefore, split, Nat.add_sub_cancel, List.take_left]
  · rw [split, Nat.add_sub_cancel]
    simp

/-- The tokens of the lines before a line stand before that line. -/
theorem line_lt_of_mem_ofLines
    {before : List (List Char)} {token : Token}
    (member : token ∈ (Stream.ofLines 0 before).tokens) :
    token.position.line < before.length + 1 := by
  obtain ⟨index, text, found, numbered, _⟩ :=
    Token.exists_line_of_mem_ofLines member
  have inside : index < before.length :=
    (List.getElem?_eq_some_iff.mp found).1
  omega

/-! ## Two readings up to a broken line -/

namespace Program

/-- Places that are equal and stand before a line, and two given reports. -/
def brokenPairing (limit : Nat) (first second : Diagnostic) : Pairing where
  places left right := left = right ∧ left.line < limit
  reports left right := left = first ∧ right = second

/-- The same tokens with two reports behind them: a fault is found in the tokens,
or each reading meets its own report. -/
theorem ofStream_of_reports
    {tokens : List Token} {limit : Nat}
    (early : ∀ token ∈ tokens, token.position.line < limit)
    (first second : Diagnostic) :
    (ofStream ⟨tokens, .error first⟩ = .error first ∧
        ofStream ⟨tokens, .error second⟩ = .error second) ∨
      ∃ diagnostic,
        diagnostic.stage ≠ .lexical ∧
          diagnostic.position.line < limit ∧
          ofStream ⟨tokens, .error first⟩ = .error diagnostic ∧
          ofStream ⟨tokens, .error second⟩ = .error diagnostic := by
  have twins :
      List.Forall₂ (brokenPairing limit first second).Twins tokens tokens :=
    List.forall₂_same.mpr fun token member =>
      ⟨rfl, rfl, rfl, early token member⟩
  have endings :
      (brokenPairing limit first second).Endings (.error first)
        (.error second) :=
    .error ⟨rfl, rfl⟩
  have concur :
      Concur (brokenPairing limit first second).Faults Eq
        (ofStream ⟨tokens, .error first⟩) (ofStream ⟨tokens, .error second⟩) :=
    ofStream_twins endings twins
  rcases concur.cases_ends with
    ⟨program, _, read, _⟩ | ⟨_, _, read, otherRead, related⟩
  · -- A program is read only up to the end of the input, and here is none.
    obtain ⟨last, ended⟩ := ending_of_ofStream read
    cases ended
  · cases related with
    | met report =>
        obtain ⟨rfl, rfl⟩ := report
        exact Or.inl ⟨read, otherRead⟩
    | found fault late place =>
        obtain ⟨rfl, before⟩ := place
        exact Or.inr ⟨_, late, before, read, otherRead⟩

/-- What the tokens decide does not depend on the report behind them. -/
theorem decided_by_tokens
    {tokens : List Token} {first second : Diagnostic}
    (early : ∀ token ∈ tokens, token.position.line < first.position.line)
    (lexical : first.stage = .lexical) (otherLexical : second.stage = .lexical)
    (sameLine : second.position.line = first.position.line) :
    (∀ diagnostic, diagnostic.stage ≠ .lexical →
      (ofStream ⟨tokens, .error first⟩ = .error diagnostic ↔
        ofStream ⟨tokens, .error second⟩ = .error diagnostic)) ∧
      (ofStream ⟨tokens, .error first⟩ = .error first ↔
        ∃ seen,
          ofStream ⟨tokens, .error second⟩ = .error seen ∧
            seen.stage = .lexical ∧
            seen.position.line = first.position.line) := by
  rcases ofStream_of_reports early first second with
    ⟨met, otherMet⟩ | ⟨diagnostic, late, _, found, otherFound⟩
  · rw [met, otherMet]
    refine ⟨?_, fun _ => ⟨second, rfl, otherLexical, sameLine⟩, fun _ => rfl⟩
    intro diagnostic late
    constructor
    · rintro ⟨⟩
      exact absurd lexical late
    · rintro ⟨⟩
      exact absurd otherLexical late
  · rw [found, otherFound]
    refine ⟨fun _ _ => Iff.rfl, ?_, ?_⟩
    · rintro ⟨⟩
      exact absurd lexical late
    · rintro ⟨seen, same, seenLexical, _⟩
      cases same
      exact absurd seenLexical late

/-- A text that is read as a program is lexed.  A text with a broken line is
refused, with the report of its first broken line or for a fault on an earlier line,
and only the lines before decide which of the two happens and for what fault. -/
theorem parse_decided_before_broken_line (source : String) :
    (∀ program, parse source = .ok program →
      ∃ tokens, tokenize source = .ok tokens) ∧
    ∀ report, tokenize source = .error report →
      report.stage = .lexical ∧
      (∃ diagnostic,
        parse source = .error diagnostic ∧
          (diagnostic = report ∨
            diagnostic.stage ≠ .lexical ∧
              diagnostic.position.line < report.position.line)) ∧
      ∀ other,
        linesBefore other report.position.line =
            linesBefore source report.position.line →
          BrokenAt other report.position.line →
            (∀ diagnostic, diagnostic.stage ≠ .lexical →
              (parse source = .error diagnostic ↔
                parse other = .error diagnostic)) ∧
            (parse source = .error report ↔
              ∃ seen,
                parse other = .error seen ∧
                  seen.stage = .lexical ∧
                  seen.position.line = report.position.line) := by
  constructor
  · intro program read
    obtain ⟨last, ended⟩ := ending_of_ofStream read
    refine ⟨(Stream.ofString source).tokens ++ [last], ?_⟩
    rw [tokenize, Stream.toList, ended]
    rfl
  intro report failed
  obtain ⟨before, last, column, whole, known, broken, shown, stream⟩ :=
    exists_broken_of_tokenize failed
  have lexical : report.stage = .lexical := by rw [shown]; rfl
  have numbered : report.position.line = before.length + 1 := by rw [shown]; rfl
  have early :
      ∀ token ∈ (Stream.ofLines 0 before).tokens,
        token.position.line < report.position.line := by
    rw [numbered]
    exact fun _ => line_lt_of_mem_ofLines
  refine ⟨lexical, ?_, ?_⟩
  · rw [parse, stream]
    rcases ofStream_of_reports early report report with
      ⟨met, _⟩ | ⟨diagnostic, late, line, found, _⟩
    · exact ⟨_, met, Or.inl rfl⟩
    · exact ⟨diagnostic, found, Or.inr ⟨late, line⟩⟩
  · intro other same otherBroken
    rw [numbered] at same otherBroken
    obtain ⟨otherColumn, otherStream⟩ :=
      ofString_of_brokenAt whole (same.trans known) otherBroken
    rw [parse, parse, stream, otherStream]
    exact decided_by_tokens early lexical rfl numbered.symm

/-- The first line lacks a value, and a line with a question mark is broken. -/
theorem parse_decided_before_question_mark :
    parse "a = ;\n?" =
        .error ⟨.syntactic, "Invalid expression.", ⟨1, 5⟩⟩ ∧
      parse "a = ;\nb ? c\nreturn" =
        .error ⟨.syntactic, "Invalid expression.", ⟨1, 5⟩⟩ := by
  have failed :
      tokenize "a = ;\n?" = .error ⟨.lexical, "Invalid token.", ⟨2, 1⟩⟩ :=
    eq_error_of_fails (by decide +kernel)
  have read :
      parse "a = ;\n?" =
        .error ⟨.syntactic, "Invalid expression.", ⟨1, 5⟩⟩ :=
    eq_error_of_fails (by decide +kernel)
  have broken : BrokenAt "a = ;\nb ? c\nreturn" 2 :=
    ⟨['b', ' ', '?', ' ', 'c'], 3, by decide +kernel, by decide +kernel⟩
  obtain ⟨_, _, alike⟩ :=
    (parse_decided_before_broken_line "a = ;\n?").2 _ failed
  obtain ⟨late, _⟩ := alike "a = ;\nb ? c\nreturn" (by decide +kernel) broken
  exact ⟨read, (late _ (by decide)).mp read⟩

/-- The same line is met when the line before asks for more. -/
example :
    Fails (parse "a =\n?") ⟨.lexical, "Invalid token.", ⟨2, 1⟩⟩ ∧
      Fails (parse "a =\nb ? c\nreturn") ⟨.lexical, "Invalid token.", ⟨2, 3⟩⟩ := by
  decide +kernel

end Program

end FlatCode
