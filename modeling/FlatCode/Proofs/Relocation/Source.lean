import FlatCode.Proofs.Grammar.Accepted
import FlatCode.Proofs.Lockstep.Layout
import FlatCode.Proofs.Text.Line

/-!
# Texts one behind the other

When the first of two texts ends with a line feed, or is empty, the lines of both
together are the lines of the first and those of the second.  So the tokens of both
together are the tokens of the first and those of the second, which stand on other
lines: `Token.Stream.ofLines_append`.

No reader decides anything by a line number, so the second text is read as the same
program wherever its lines are counted from: `Program.ofStream_ofLines`.
-/

namespace FlatCode

/-! ## Lines -/

namespace Text

theorem lines_ne_nil {text : List Char} (some : text ≠ []) : lines text ≠ [] := by
  cases text using lines.fun_cases with
  | case1 =>
      exact absurd rfl some
  | case2 | case3 =>
      exact List.cons_ne_nil _ _
  | case4 character rest ordinary inner empty =>
      rw [lines_cons ordinary inner, empty]
      exact List.cons_ne_nil _ _
  | case5 character rest ordinary inner line later split =>
      rw [lines_cons ordinary inner, split]
      exact List.cons_ne_nil _ _

theorem lines_cons_append
    {character : Char} {text rest : List Char} (ordinary : character ≠ '\n')
    (inner : ∀ later, character = '\r' → text ≠ '\n' :: later)
    (split :
      lines (text ++ '\n' :: rest) = lines (text ++ ['\n']) ++ lines rest) :
    lines (character :: (text ++ '\n' :: rest)) =
      lines (character :: (text ++ ['\n'])) ++ lines rest := by
  -- a carriage return right in front of the line feed belongs to the line end
  by_cases carriage : character = '\r' ∧ text = []
  · obtain ⟨rfl, rfl⟩ := carriage
    rfl
  · have behind :
        ∀ tail later, character = '\r' →
          text ++ '\n' :: tail ≠ '\n' :: later := by
      intro tail later isCarriage starts
      cases text with
      | nil =>
          exact carriage ⟨isCarriage, rfl⟩
      | cons next others =>
          cases starts
          exact inner _ isCarriage rfl
    obtain ⟨line, others, shape⟩ :=
      List.exists_cons_of_ne_nil
        (lines_ne_nil (show text ++ ['\n'] ≠ [] by simp))
    rw [lines_cons ordinary (behind rest), lines_cons ordinary (behind []),
      split, shape]
    rfl

theorem lines_append_concat (text rest : List Char) :
    lines (text ++ '\n' :: rest) = lines (text ++ ['\n']) ++ lines rest := by
  induction text using lines.induct with
  | case1 =>
      rfl
  | case2 text inductionHypothesis =>
      exact congrArg ([] :: ·) inductionHypothesis
  | case3 text inductionHypothesis =>
      exact congrArg ([] :: ·) inductionHypothesis
  | case4 character text ordinary inner _ inductionHypothesis =>
      exact lines_cons_append ordinary inner inductionHypothesis
  | case5 character text ordinary inner _ _ _ inductionHypothesis =>
      exact lines_cons_append ordinary inner inductionHypothesis

/-- Behind a line end the lines of a text start anew. -/
theorem lines_append
    {first : List Char} (ended : first = [] ∨ first.getLast? = some '\n')
    (second : List Char) :
    lines (first ++ second) = lines first ++ lines second := by
  rcases ended with rfl | last
  · rfl
  · obtain ⟨text, rfl⟩ := List.getLast?_eq_some_iff.mp last
    rw [List.append_assoc]
    exact lines_append_concat text second

end Text

/-! ## Tokens -/

namespace Token

/-- The number of a line changes nothing but the places of its tokens. -/
theorem lexFrom_shapes (line other column : Nat) (text : List Char) :
    (lexFrom line column text).tokens.map shape =
        (lexFrom other column text).tokens.map shape ∧
      (lexFrom line column text).invalid =
        (lexFrom other column text).invalid := by
  induction column, text using lexFrom.induct with
  | case1 column =>
      simp [lexFrom]
  | case2 column first rest blank inductionHypothesis =>
      simpa [lexFrom, blank] using inductionHypothesis
  | case3 column first rest dark kind text extra lexed inductionHypothesis =>
      simpa [lexFrom, dark, lexed, LexedLine.push, shape] using
        inductionHypothesis
  | case4 column first rest dark lexed =>
      simp [lexFrom, dark, lexed]
  | case5 column first rest dark lexed =>
      simp [lexFrom, dark, lexed]

namespace Stream

/-- Lines behind lines that are whole give their tokens behind the others. -/
theorem ofLines_append
    {line : Nat} {first : List (List Char)} {last : Token}
    (whole : (ofLines line first).ending = .ok last)
    (second : List (List Char)) :
    ofLines line (first ++ second) =
      ⟨(ofLines line first).tokens ++
          (ofLines (line + first.length) second).tokens,
        (ofLines (line + first.length) second).ending⟩ := by
  induction first generalizing line with
  | nil =>
      rfl
  | cons text later inductionHypothesis =>
      cases broken : (lexLine (line + 1) text).invalid with
      | some column =>
          rw [ofLines_cons_of_broken broken] at whole
          cases whole
      | none =>
          rw [ofLines_cons_of_whole broken] at whole
          rw [List.cons_append, ofLines_cons_of_whole broken,
            ofLines_cons_of_whole broken, inductionHypothesis whole,
            List.length_cons, List.append_assoc, Nat.add_assoc,
            Nat.add_comm 1]

/-- Whole lines that are counted from elsewhere give tokens of the same shapes. -/
theorem shapes_ofLines
    {line : Nat} {lines : List (List Char)} {last : Token}
    (whole : (ofLines line lines).ending = .ok last) (other : Nat) :
    (ofLines other lines).tokens.map shape =
        (ofLines line lines).tokens.map shape ∧
      ∃ otherLast,
        (ofLines other lines).ending = .ok otherLast ∧
          otherLast.shape = last.shape := by
  induction lines generalizing line other with
  | nil =>
      cases whole
      exact ⟨rfl, _, rfl, rfl⟩
  | cons text later inductionHypothesis =>
      obtain ⟨shapes, sameInvalid⟩ :=
        lexFrom_shapes (other + 1) (line + 1) 1 text
      cases broken : (lexLine (line + 1) text).invalid with
      | some column =>
          rw [ofLines_cons_of_broken broken] at whole
          cases whole
      | none =>
          rw [ofLines_cons_of_whole broken] at whole
          obtain ⟨laterShapes, otherLast, ended⟩ :=
            inductionHypothesis whole (other + 1)
          have otherWhole : (lexLine (other + 1) text).invalid = none :=
            sameInvalid.trans broken
          rw [ofLines_cons_of_whole broken, ofLines_cons_of_whole otherWhole]
          refine ⟨?_, otherLast, ended⟩
          rw [List.map_append, List.map_append, laterShapes]
          exact congrArg (· ++ _) shapes

end Stream

end Token

namespace Program

/-- Streams whose tokens have the same shapes are read as the same program. -/
theorem ofStream_of_shapes
    {first second : Token.Stream} {last otherLast : Token} {program : Program}
    (read : ofStream first = .ok program) (ended : first.ending = .ok last)
    (otherEnded : second.ending = .ok otherLast)
    (shapes :
      (first.tokens ++ [last]).map Token.shape =
        (second.tokens ++ [otherLast]).map Token.shape) :
    ofStream second = .ok program := by
  obtain ⟨twins, lasts⟩ := Token.streams_of_shapes (Token.twins_of_shapes shapes)
  have endings :
      (Token.layoutPairing (first.tokens ++ [last])
        (second.tokens ++ [otherLast])).Endings first.ending second.ending := by
    rw [ended, otherEnded]
    exact .ok lasts
  rcases (ofStream_twins endings twins).cases_ends with
    ⟨left, right, leftRead, rightRead, rfl⟩ | ⟨report, _, failed, _⟩
  · rw [rightRead, ← leftRead, read]
  · rw [read] at failed
    cases failed

/-- Lines are read as the same program wherever they are counted from. -/
theorem ofStream_ofLines
    {line : Nat} {lines : List (List Char)} {program : Program}
    (read : ofStream (Token.Stream.ofLines line lines) = .ok program)
    (other : Nat) :
    ofStream (Token.Stream.ofLines other lines) = .ok program := by
  obtain ⟨last, ended⟩ := ending_of_ofStream read
  obtain ⟨shapes, otherLast, otherEnded, lastShape⟩ :=
    Token.Stream.shapes_ofLines ended other
  refine ofStream_of_shapes read ended otherEnded ?_
  simp [shapes, lastShape]

end Program

end FlatCode
