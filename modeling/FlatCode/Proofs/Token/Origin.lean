import FlatCode.Token.Stream

/-!
# Where tokens come from

Every token of a text is the lexeme at some character of one of its lines, and it
carries the number of that line.  So what holds of the lexemes of all lines holds
of all tokens.
-/

namespace FlatCode.Token

/-- A token is the lexeme at some character of a line. -/
def OccursIn (token : Token) (line : List Char) : Prop :=
  ∃ first rest extra,
    (first :: rest) <:+ line ∧
      Lexeme.munch first rest = .token token.kind token.text extra

theorem OccursIn.of_suffix
    {token : Token} {line whole : List Char}
    (occurs : token.OccursIn line) (suffix : line <:+ whole) :
    token.OccursIn whole := by
  obtain ⟨first, rest, extra, inside, lexed⟩ := occurs
  exact ⟨first, rest, extra, inside.trans suffix, lexed⟩

theorem occursIn_of_mem_lexFrom
    {number column : Nat} {line : List Char} {token : Token}
    (member : token ∈ (lexFrom number column line).tokens) :
    token.position.line = number ∧ token.OccursIn line := by
  induction column, line using lexFrom.induct with
  | case1 column =>
      simp [lexFrom] at member
  | case2 column first rest blank inductionHypothesis =>
      rw [lexFrom, if_pos blank] at member
      obtain ⟨numbered, occurs⟩ := inductionHypothesis member
      exact ⟨numbered, occurs.of_suffix (List.suffix_cons _ _)⟩
  | case3 column first rest dark kind text extra lexed inductionHypothesis =>
      rw [lexFrom, if_neg dark, lexed] at member
      rcases List.mem_cons.mp member with rfl | later
      · exact ⟨rfl, first, rest, extra, List.suffix_rfl, lexed⟩
      · obtain ⟨numbered, occurs⟩ := inductionHypothesis later
        have suffix : rest.drop extra <:+ first :: rest :=
          (List.drop_suffix _ _).trans (List.suffix_cons _ _)
        exact ⟨numbered, occurs.of_suffix suffix⟩
  | case4 column first rest dark lexed =>
      rw [lexFrom, if_neg dark, lexed] at member
      cases member
  | case5 column first rest dark lexed =>
      rw [lexFrom, if_neg dark, lexed] at member
      cases member

/-! ## One more line in front -/

theorem Stream.ofLines_cons_of_broken
    {line column : Nat} {text : List Char}
    (broken : (lexLine (line + 1) text).invalid = some column)
    (later : List (List Char)) :
    ofLines line (text :: later) =
      ⟨[], .error (Fault.invalidToken.reportAt ⟨line + 1, column⟩)⟩ := by
  rw [ofLines]
  split
  · next tokens found lexed =>
      rw [lexed] at broken
      cases broken
      rfl
  · next tokens lexed =>
      rw [lexed] at broken
      cases broken

theorem Stream.ofLines_cons_of_whole
    {line : Nat} {text : List Char}
    (whole : (lexLine (line + 1) text).invalid = none)
    (later : List (List Char)) :
    ofLines line (text :: later) =
      ⟨(lexLine (line + 1) text).tokens ++ (ofLines (line + 1) later).tokens,
        (ofLines (line + 1) later).ending⟩ := by
  rw [ofLines]
  split
  · next tokens found lexed =>
      rw [lexed] at whole
      cases whole
  · next tokens lexed =>
      rw [lexed]

/-- A token of a stream stands in one of its lines. -/
theorem exists_line_of_mem_ofLines
    {line : Nat} {lines : List (List Char)} {token : Token}
    (member : token ∈ (Stream.ofLines line lines).tokens) :
    ∃ index text,
      lines[index]? = some text ∧
        token.position.line = line + index + 1 ∧ token.OccursIn text := by
  induction lines generalizing line with
  | nil =>
      cases member
  | cons text later inductionHypothesis =>
      cases broken : (lexLine (line + 1) text).invalid with
      | some column =>
          rw [Stream.ofLines_cons_of_broken broken] at member
          cases member
      | none =>
          rw [Stream.ofLines_cons_of_whole broken] at member
          rcases List.mem_append.mp member with here | behind
          · obtain ⟨numbered, occurs⟩ := occursIn_of_mem_lexFrom here
            exact ⟨0, text, rfl, numbered, occurs⟩
          · obtain ⟨index, text, found, numbered, occurs⟩ :=
              inductionHypothesis behind
            refine ⟨index + 1, text, found, ?_, occurs⟩
            omega

/-! ## Lexing a whole text -/

/-- The tokens of a text are those of its stream and the end of the input. -/
theorem exists_ending_of_tokenize
    {text : String} {tokens : List Token}
    (lexed : tokenize text = .ok tokens) :
    ∃ last,
      (Stream.ofString text).ending = .ok last ∧
        tokens = (Stream.ofString text).tokens ++ [last] := by
  rw [tokenize, Stream.toList] at lexed
  cases ended : (Stream.ofString text).ending with
  | error report =>
      rw [ended] at lexed
      cases lexed
  | ok last =>
      rw [ended] at lexed
      cases lexed
      exact ⟨last, rfl, rfl⟩

/-- A text that is not lexed has the report of a broken line in its stream. -/
theorem ending_of_tokenize_error
    {text : String} {report : Diagnostic}
    (failed : tokenize text = .error report) :
    (Stream.ofString text).ending = .error report := by
  rw [tokenize, Stream.toList] at failed
  cases ended : (Stream.ofString text).ending with
  | error met =>
      rw [ended] at failed
      cases failed
      rfl
  | ok last =>
      rw [ended] at failed
      cases failed

end FlatCode.Token
