import FlatCode.Token.Parsed

/-!
# What the token readers give

A reader that succeeds has taken its tokens from the front of the list.  For the
readers of single tokens this is an equation: the list starts with the token
that was read, and the tokens behind it are the rest.

Readers are put together by `>>=`, so a result of a longer reader is taken apart
by `bind_eq_ok_iff`, one reader after the other.
-/

namespace FlatCode

/-- A sequence of two computations succeeds when the first does, and the second
does on its value. -/
theorem bind_eq_ok_iff
    {ε α β : Type} {first : Except ε α} {next : α → Except ε β} {result : β} :
    (first >>= next) = .ok result ↔
      ∃ value, first = .ok value ∧ next value = .ok result := by
  cases first with
  | error fault =>
      simp [bind, Except.bind]
  | ok value =>
      simp [bind, Except.bind]

/-- A value that passes a check was computed. -/
theorem exists_ok_of_any
    {ε α : Type} {result : Except ε α} {condition : α → Bool}
    (accepted : result.toOption.any condition = true) :
    ∃ value, result = .ok value ∧ condition value = true := by
  cases result with
  | error fault =>
      cases accepted
  | ok value =>
      exact ⟨value, rfl, accepted⟩

namespace Token

/-- A result with a given property, in front of known tokens. -/
structure Sound
    {α : Type} {limit : Nat} (known : Token → Prop) (property : α → Prop)
    (parsed : Parsed α limit) : Prop where
  value : property parsed.value
  rest : ∀ token ∈ parsed.rest, known token

variable {ending : Ending} {kind : Kind} {tokens : List Token}

/-- An expected token that was read is the first one of the list. -/
theorem eq_cons_of_expect
    {parsed : Parsed Token tokens.length}
    (read : expect ending kind tokens = .ok parsed) :
    tokens = parsed.value :: parsed.rest ∧ parsed.value.kind = kind := by
  cases tokens with
  | nil =>
      simp only [expect, bind_eq_ok_iff, reduceCtorEq, and_false,
        exists_false] at read
  | cons token rest =>
      by_cases fits : token.kind = kind
      · simp only [expect, fits, if_true, Except.ok.injEq] at read
        subst read
        exact ⟨rfl, fits⟩
      · simp [expect, fits] at read

/-- An accepted token is the first one of the list. -/
theorem eq_cons_of_accept
    {parsed : Parsed Token tokens.length}
    (read : accept ending kind tokens = .ok (some parsed)) :
    tokens = parsed.value :: parsed.rest ∧ parsed.value.kind = kind := by
  cases tokens with
  | nil =>
      simp [accept, bind_eq_ok_iff] at read
  | cons token rest =>
      by_cases fits : token.kind = kind
      · simp only [accept, fits, if_true, Except.ok.injEq,
          Option.some.injEq] at read
        subst read
        exact ⟨rfl, fits⟩
      · simp [accept, fits] at read

/-- The tokens behind an expected token are known, and so is the token. -/
theorem known_of_expect
    {known : Token → Prop} {parsed : Parsed Token tokens.length}
    (tokensKnown : ∀ token ∈ tokens, known token)
    (read : expect ending kind tokens = .ok parsed) :
    known parsed.value ∧ ∀ token ∈ parsed.rest, known token := by
  rw [(eq_cons_of_expect read).1] at tokensKnown
  exact List.forall_mem_cons.mp tokensKnown

/-- The tokens behind an accepted token are known, and so is the token. -/
theorem known_of_accept
    {known : Token → Prop} {parsed : Parsed Token tokens.length}
    (tokensKnown : ∀ token ∈ tokens, known token)
    (read : accept ending kind tokens = .ok (some parsed)) :
    known parsed.value ∧ ∀ token ∈ parsed.rest, known token := by
  rw [(eq_cons_of_accept read).1] at tokensKnown
  exact List.forall_mem_cons.mp tokensKnown

end Token

end FlatCode
