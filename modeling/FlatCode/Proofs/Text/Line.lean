import FlatCode.Text.Blank
import FlatCode.Text.Line

/-!
# Lines written and split again

Lines that are written one below the other are found again when the text is split,
provided that each of them stands on one line: it holds no line feed, and it does
not end in a carriage return, which would be taken for a part of the line end.

A carriage return in any other place of a line does no harm, and neither does an
empty line.
-/

namespace FlatCode.Text

/-- A line that is found again behind its line end. -/
structure OneLine (line : List Char) : Prop where
  lineFeed : '\n' ∉ line
  carriageReturn : line.getLast? ≠ some '\r'

theorem OneLine.append
    {first second : List Char} (firstOneLine : OneLine first)
    (secondOneLine : OneLine second) :
    OneLine (first ++ second) := by
  constructor
  · intro member
    rcases List.mem_append.mp member with early | late
    · exact firstOneLine.lineFeed early
    · exact secondOneLine.lineFeed late
  · rw [List.getLast?_append]
    cases last : second.getLast? with
    | none =>
        exact firstOneLine.carriageReturn
    | some character =>
        rw [← last]
        simpa [last] using secondOneLine.carriageReturn

/-! ## Splitting -/

/-- A character that neither is a line feed nor starts a line end belongs to the
first line. -/
theorem lines_cons
    {character : Char} {rest : List Char} (ordinary : character ≠ '\n')
    (inner : ∀ later, character = '\r' → rest ≠ '\n' :: later) :
    lines (character :: rest) =
      match lines rest with
      | [] => [[character]]
      | line :: later => (character :: line) :: later :=
  lines.eq_4 character rest ordinary inner

/-- A line is split off at its line feed. -/
theorem lines_append_lineFeed
    {line : List Char} (oneLine : OneLine line) (rest : List Char) :
    lines (line ++ '\n' :: rest) = line :: lines rest := by
  induction line with
  | nil =>
      rfl
  | cons character others inductionHypothesis =>
      have ordinary : character ≠ '\n' :=
        fun same => oneLine.lineFeed (same ▸ List.mem_cons_self)
      have inner :
          ∀ later, character = '\r' → others ++ '\n' :: rest ≠ '\n' :: later := by
        rintro later rfl starts
        cases others with
        | nil =>
            exact oneLine.carriageReturn rfl
        | cons next others =>
            cases starts
            exact oneLine.lineFeed (by simp)
      have othersOneLine : OneLine others := by
        refine ⟨fun member => oneLine.lineFeed (List.mem_cons_of_mem _ member), ?_⟩
        intro last
        apply oneLine.carriageReturn
        rw [List.getLast?_cons, last]
        rfl
      rw [List.cons_append, lines_cons ordinary inner,
        inductionHypothesis othersOneLine]

/-- Lines that are written one below the other are found again. -/
theorem lines_unlines
    {texts : List String} (oneLines : ∀ text ∈ texts, OneLine text.toList) :
    lines (unlines texts).toList = texts.map String.toList := by
  induction texts with
  | nil =>
      rfl
  | cons first others inductionHypothesis =>
      obtain ⟨firstOneLine, othersOneLine⟩ := List.forall_mem_cons.mp oneLines
      have written :
          (unlines (first :: others)).toList =
            first.toList ++ '\n' :: (unlines others).toList := by
        simp [unlines, String.join_cons, String.toList_append]
      rw [written, lines_append_lineFeed firstOneLine,
        inductionHypothesis othersOneLine, List.map_cons]

/-- No line holds a line feed. -/
theorem lineFeed_not_mem_of_mem_lines
    {text line : List Char} (member : line ∈ lines text) : '\n' ∉ line := by
  induction text using lines.induct generalizing line with
  | case1 =>
      cases member
  | case2 rest inductionHypothesis =>
      rcases List.mem_cons.mp member with rfl | later
      · simp
      · exact inductionHypothesis later
  | case3 rest inductionHypothesis =>
      rcases List.mem_cons.mp member with rfl | later
      · simp
      · exact inductionHypothesis later
  | case4 character rest ordinary inner empty _ =>
      rw [lines_cons ordinary inner, empty, List.mem_singleton] at member
      subst member
      simpa using Ne.symm ordinary
  | case5 character rest ordinary inner first later split inductionHypothesis =>
      rw [lines_cons ordinary inner, split] at member
      rcases List.mem_cons.mp member with rfl | behind
      · have firstHolds : '\n' ∉ first :=
          inductionHypothesis (split ▸ List.mem_cons_self)
        exact List.not_mem_cons_of_ne_of_not_mem (Ne.symm ordinary) firstHolds
      · exact inductionHypothesis (split ▸ List.mem_cons_of_mem _ behind)

/-! ## Trimming -/

theorem trim_sublist (text : List Char) : (trim text).Sublist text := by
  unfold trim
  have inner : (text.dropWhile isBlank).Sublist text :=
    (List.dropWhile_suffix _).sublist
  have outer :
      ((text.dropWhile isBlank).reverse.dropWhile isBlank).Sublist
        (text.dropWhile isBlank).reverse :=
    (List.dropWhile_suffix _).sublist
  simpa using (List.reverse_sublist.mpr outer).trans (by simpa using inner)

/-- A trimmed text does not end in a blank. -/
theorem getLast?_trim
    {text : List Char} {last : Char} (ends : (trim text).getLast? = some last) :
    isBlank last = false := by
  unfold trim at ends
  rw [List.getLast?_reverse] at ends
  have dark := List.head?_dropWhile_not isBlank (text.dropWhile isBlank).reverse
  rw [ends] at dark
  exact dark

/-- A trimmed text does not start with a blank. -/
theorem head?_trim
    {text : List Char} {first : Char} (starts : (trim text).head? = some first) :
    isBlank first = false := by
  have inner : trim text <+: text.dropWhile isBlank := by
    rw [← List.reverse_suffix, trim, List.reverse_reverse]
    exact List.dropWhile_suffix _
  obtain ⟨later, same⟩ := inner
  have dark := List.head?_dropWhile_not isBlank text
  rw [← same, List.head?_append, starts] at dark
  exact dark

theorem dropWhile_isBlank_eq_self
    {text : List Char} (dark : ∀ first, text.head? = some first → isBlank first = false) :
    text.dropWhile isBlank = text := by
  cases text with
  | nil =>
      rfl
  | cons first rest =>
      rw [List.dropWhile_cons, dark first rfl]
      rfl

/-- Trimming a second time changes nothing. -/
theorem trim_trim (text : List Char) : trim (trim text) = trim text := by
  have front : (trim text).dropWhile isBlank = trim text :=
    dropWhile_isBlank_eq_self fun _ => head?_trim
  have back : (trim text).reverse.dropWhile isBlank = (trim text).reverse := by
    refine dropWhile_isBlank_eq_self fun last ends => ?_
    rw [List.head?_reverse] at ends
    exact getLast?_trim ends
  rw [trim, front, back, List.reverse_reverse]

theorem oneLine_trim {text : List Char} (lineFeed : '\n' ∉ text) :
    OneLine (trim text) := by
  refine ⟨fun member => lineFeed ((trim_sublist text).mem member), ?_⟩
  intro last
  have dark := getLast?_trim last
  revert dark
  decide

end FlatCode.Text
