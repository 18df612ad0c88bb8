import FlatCode.Diagnostic

/-!
# Reading from the front of a token list

A reader takes a token list and gives a value together with the tokens behind
it.  The result type `Parsed` records that those tokens are fewer than a given
limit, so that readers which call each other can be seen to end:

* a reader that takes at least one token has the length of its list as limit;
* a reader that may take none has the next larger number.

Behind the last token stands an `Ending`: the end of the input, or the report
of a broken line.  Whoever looks behind the last token meets the ending, and a
report found there is passed on.
-/

namespace FlatCode.Token

/-- What stands behind the last token of a list. -/
abbrev Ending :=
  Except Diagnostic Token

/-- A value, and fewer than `limit` tokens that are left behind it. -/
structure Parsed (α : Type) (limit : Nat) where
  value : α
  rest : List Token
  rest_length_lt : rest.length < limit

namespace Parsed

variable {α β : Type} {limit : Nat}

def stay (value : α) (tokens : List Token) : Parsed α (tokens.length + 1) :=
  ⟨value, tokens, Nat.lt_succ_self _⟩

/-- The same result under the next larger limit. -/
def weaken (parsed : Parsed α limit) : Parsed α (limit + 1) :=
  ⟨parsed.value, parsed.rest, Nat.lt_succ_of_lt parsed.rest_length_lt⟩

def map (function : α → β) (parsed : Parsed α limit) : Parsed β limit :=
  ⟨function parsed.value, parsed.rest, parsed.rest_length_lt⟩

/-- A result that was read in the tokens behind another one. -/
def andThen
    (first : Parsed α limit) (second : Parsed β first.rest.length) :
    Parsed β limit :=
  ⟨second.value, second.rest,
    Nat.lt_trans second.rest_length_lt first.rest_length_lt⟩

/-- A result that was read in the tokens behind another one, where the later
reader may have taken no token. -/
def andMaybe
    (first : Parsed α limit) (second : Parsed β (first.rest.length + 1)) :
    Parsed β limit :=
  ⟨second.value, second.rest,
    Nat.lt_of_le_of_lt
      (Nat.le_of_lt_succ second.rest_length_lt) first.rest_length_lt⟩

/-- A result that was read in the tokens behind another one, where the earlier
reader may have taken no token. -/
def maybeThen
    (first : Parsed α (limit + 1)) (second : Parsed β first.rest.length) :
    Parsed β limit :=
  ⟨second.value, second.rest,
    Nat.lt_of_lt_of_le
      second.rest_length_lt (Nat.le_of_lt_succ first.rest_length_lt)⟩

@[simp]
theorem value_stay (value : α) (tokens : List Token) :
    (stay value tokens).value = value := rfl

@[simp]
theorem rest_stay (value : α) (tokens : List Token) :
    (stay value tokens).rest = tokens := rfl

@[simp]
theorem value_weaken (parsed : Parsed α limit) :
    parsed.weaken.value = parsed.value := rfl

@[simp]
theorem rest_weaken (parsed : Parsed α limit) :
    parsed.weaken.rest = parsed.rest := rfl

@[simp]
theorem value_map (function : α → β) (parsed : Parsed α limit) :
    (parsed.map function).value = function parsed.value := rfl

@[simp]
theorem rest_map (function : α → β) (parsed : Parsed α limit) :
    (parsed.map function).rest = parsed.rest := rfl

@[simp]
theorem value_andThen
    (first : Parsed α limit) (second : Parsed β first.rest.length) :
    (first.andThen second).value = second.value := rfl

@[simp]
theorem rest_andThen
    (first : Parsed α limit) (second : Parsed β first.rest.length) :
    (first.andThen second).rest = second.rest := rfl

@[simp]
theorem value_andMaybe
    (first : Parsed α limit) (second : Parsed β (first.rest.length + 1)) :
    (first.andMaybe second).value = second.value := rfl

@[simp]
theorem rest_andMaybe
    (first : Parsed α limit) (second : Parsed β (first.rest.length + 1)) :
    (first.andMaybe second).rest = second.rest := rfl

@[simp]
theorem value_maybeThen
    (first : Parsed α (limit + 1)) (second : Parsed β first.rest.length) :
    (first.maybeThen second).value = second.value := rfl

@[simp]
theorem rest_maybeThen
    (first : Parsed α (limit + 1)) (second : Parsed β first.rest.length) :
    (first.maybeThen second).rest = second.rest := rfl

end Parsed

def peek (ending : Ending) : List Token → Except Diagnostic Token
  | [] => ending
  | token :: _ => .ok token

/-- Read a token of one particular kind, other than the end of the input. -/
def expect
    (ending : Ending) (kind : Kind) :
    (tokens : List Token) → Except Diagnostic (Parsed Token tokens.length)
  | [] => do
      let last ← ending
      .error ((Fault.expected kind).reportAt last.position)
  | token :: rest =>
      if token.kind = kind then
        .ok (.stay token rest)
      else
        .error ((Fault.expected kind).reportAt token.position)

def accept
    (ending : Ending) (kind : Kind) :
    (tokens : List Token) →
      Except Diagnostic (Option (Parsed Token tokens.length))
  | [] => do
      let _ ← ending
      .ok none
  | token :: rest =>
      if token.kind = kind then
        .ok (some (.stay token rest))
      else
        .ok none

def expectEnd (ending : Ending) : List Token → Except Diagnostic Unit
  | [] => do
      let _ ← ending
      .ok ()
  | token :: _ => .error ((Fault.expected .eof).reportAt token.position)

end FlatCode.Token
