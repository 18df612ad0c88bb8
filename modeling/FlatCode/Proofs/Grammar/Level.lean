import FlatCode.Proofs.Grammar.Build
import FlatCode.Proofs.Reading.Token

/-!
# The signs of the levels

The levels of the language have the signs that the grammar gives them, and no two
levels share a sign.  So a sign determines its level, and at a token that is an
operator of one level no tighter level can go on.

Readers look at tokens one by one, the grammar looks at the kind of the token that
comes next; the last part of this module relates the two.
-/

namespace FlatCode

open Token (Ending Kind Parsed)

namespace Level

def signs (level : Level) : List Kind :=
  level.operators.map Prod.fst

def signsAll (levels : List Level) : List (List Kind) :=
  levels.map signs

@[simp]
theorem signsAll_nil : signsAll [] = [] := rfl

@[simp]
theorem signsAll_cons (level : Level) (levels : List Level) :
    signsAll (level :: levels) = level.signs :: signsAll levels := rfl

theorem signsAll_table : signsAll table = Surface.binaryLevels := rfl

theorem nodup_signsAll_table : (signsAll table).flatten.Nodup := by
  decide

theorem operator?_eq_none_iff {level : Level} {sign : Kind} :
    level.operator? sign = none ↔ sign ∉ level.signs := by
  simp only [operator?, signs, Option.map_eq_none_iff, List.find?_eq_none,
    beq_iff_eq, List.mem_map, not_exists, not_and]

theorem mem_signs_of_operator?
    {level : Level} {sign : Kind} {operator : Operator}
    (found : level.operator? sign = some operator) :
    sign ∈ level.signs := by
  by_cases member : sign ∈ level.signs
  · exact member
  · rw [operator?_eq_none_iff.mpr member] at found
    cases found

theorem exists_operator?
    {level : Level} {sign : Kind} (member : sign ∈ level.signs) :
    ∃ operator, level.operator? sign = some operator := by
  cases found : level.operator? sign with
  | none =>
      exact absurd member (operator?_eq_none_iff.mp found)
  | some operator =>
      exact ⟨operator, rfl⟩

section Table

variable {level : Level} {tighter : List Level} {sign : Kind}

/-- A sign of one level is no sign of the levels before it and behind it. -/
theorem not_mem_of_append
    {looser : List Level} (split : looser ++ level :: tighter = table)
    (member : sign ∈ level.signs) :
    sign ∉ (signsAll looser).flatten ∧ sign ∉ (signsAll tighter).flatten := by
  have distinct := nodup_signsAll_table
  rw [← split, signsAll, List.map_append, List.map_cons, List.flatten_append,
    List.flatten_cons, List.nodup_append] at distinct
  obtain ⟨_, distinct, apart⟩ := distinct
  rw [List.nodup_append] at distinct
  constructor
  · intro before
    exact apart sign before sign (List.mem_append_left _ member) rfl
  · intro behind
    exact distinct.2.2 sign member sign behind rfl

theorem not_mem_tighter
    (within : level :: tighter <:+ table) (member : sign ∈ level.signs) :
    sign ∉ (signsAll tighter).flatten := by
  obtain ⟨looser, split⟩ := within
  exact (not_mem_of_append split member).2

theorem tighter_within (within : level :: tighter <:+ table) :
    tighter <:+ table :=
  (List.suffix_cons level tighter).trans within

/-- A sign determines its level and its operator. -/
theorem levelOf?_eq
    {operator : Operator} (within : level :: tighter <:+ table)
    (found : level.operator? sign = some operator) :
    Surface.levelOf? sign = some (level, operator) := by
  obtain ⟨looser, split⟩ := within
  have before :=
    (not_mem_of_append split (mem_signs_of_operator? found)).1
  rw [Surface.levelOf?, List.findSome?_eq_some_iff]
  refine ⟨looser, level, tighter, split.symm, ?_, ?_⟩
  · rw [found]
    rfl
  · intro other member
    have foreign : other.operator? sign = none := by
      rw [operator?_eq_none_iff]
      intro inside
      apply before
      rw [List.mem_flatten]
      exact ⟨other.signs, List.mem_map_of_mem member, inside⟩
    rw [foreign]
    rfl

end Table

end Level

namespace Token

open Surface (nextKind)

variable {ending : Ending} {kind : Kind} {tokens : List Token}

@[simp]
theorem nextKind_nil : nextKind [] = .eof := rfl

@[simp]
theorem nextKind_cons (token : Token) (rest : List Token) :
    nextKind (token :: rest) = token.kind := rfl

/-- A token that is not accepted does not come next. -/
theorem nextKind_ne_of_accept
    (read : accept ending kind tokens = .ok none) (inner : kind ≠ .eof) :
    nextKind tokens ≠ kind := by
  cases tokens with
  | nil =>
      exact inner.symm
  | cons token rest =>
      intro same
      rw [nextKind_cons] at same
      simp [accept, same] at read

end Token

end FlatCode
