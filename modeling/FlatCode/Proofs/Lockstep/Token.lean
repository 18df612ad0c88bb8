import FlatCode.Token.Parsed
import FlatCode.Token.Stream
import Mathlib.Data.List.Forall2

/-!
# Two readings in step

Two token lists are read side by side.  Their tokens agree in kind and text, one
by one, and their places correspond in some way that is left open: a `Pairing`
says which places correspond, and which reports of broken lines do.

No reader looks at a place except to report it.  So two readings go the same way:

* both succeed, with the same value and with tokens behind it that agree;
* or both report the same fault, at places that correspond;
* or both meet a report behind the last token and pass it on.

This module says so of the readers of single tokens.  A longer reader is put
together by `>>=`, and `Concur.bind` puts its two readings together.
-/

namespace FlatCode

/-- Two computations end alike: both with values or both with faults that are
related. -/
inductive Concur
    {ε α β : Type} (faults : ε → ε → Prop) (values : α → β → Prop) :
    Except ε α → Except ε β → Prop where
  | ok {first : α} {second : β} (related : values first second) :
      Concur faults values (.ok first) (.ok second)
  | error {first second : ε} (related : faults first second) :
      Concur faults values (.error first) (.error second)

namespace Concur

variable {ε α β γ δ : Type} {faults : ε → ε → Prop} {values : α → β → Prop}
  {results : γ → δ → Prop} {first : Except ε α} {second : Except ε β}
  {firstNext : α → Except ε γ} {secondNext : β → Except ε δ}

/-- Two sequences end alike when their first parts do, and their second parts do
on related values. -/
theorem bind
    (concur : Concur faults values first second)
    (next : ∀ left right, values left right →
      Concur faults results (firstNext left) (secondNext right)) :
    Concur faults results (first >>= firstNext) (second >>= secondNext) := by
  cases concur with
  | ok related =>
      exact next _ _ related
  | error related =>
      exact .error related

theorem mono
    {wider : ε → ε → Prop} (concur : Concur faults values first second)
    (widens : ∀ left right, faults left right → wider left right) :
    Concur wider values first second := by
  cases concur with
  | ok related =>
      exact .ok related
  | error related =>
      exact .error (widens _ _ related)

theorem cases_ends (concur : Concur faults values first second) :
    (∃ left right,
      first = .ok left ∧ second = .ok right ∧ values left right) ∨
      ∃ left right,
        first = .error left ∧ second = .error right ∧ faults left right := by
  cases concur with
  | ok related =>
      exact Or.inl ⟨_, _, rfl, rfl, related⟩
  | error related =>
      exact Or.inr ⟨_, _, rfl, rfl, related⟩

end Concur

/-- Whether a computation fails with a given report. -/
def Fails {α : Type} (result : Except Diagnostic α) (report : Diagnostic) :
    Bool :=
  match result with
  | .ok _ => false
  | .error met => met == report

theorem eq_error_of_fails
    {α : Type} {result : Except Diagnostic α} {report : Diagnostic}
    (fails : Fails result report = true) :
    result = .error report := by
  cases result with
  | ok value =>
      cases fails
  | error met =>
      exact congrArg Except.error (beq_iff_eq.mp fails)

namespace Token

/-- Which places of two token lists correspond, and which reports behind them. -/
structure Pairing where
  places : Position → Position → Prop
  reports : Diagnostic → Diagnostic → Prop

namespace Pairing

variable (pairing : Pairing)

/-- Two tokens that agree in kind and text and stand at places that
correspond. -/
structure Twins (first second : Token) : Prop where
  kind : first.kind = second.kind
  text : first.text = second.text
  place : pairing.places first.position second.position

/-- Two reports of one fault: it is found at places that correspond, or it stands
behind the last token of both lists. -/
inductive Faults : Diagnostic → Diagnostic → Prop where
  | found (fault : Fault) (late : fault.stage ≠ .lexical)
      {first second : Position} (place : pairing.places first second) :
      Faults (fault.reportAt first) (fault.reportAt second)
  | met {first second : Diagnostic} (report : pairing.reports first second) :
      Faults first second

abbrev Endings : Ending → Ending → Prop :=
  Concur pairing.reports pairing.Twins

/-- Two results with related values in front of tokens that agree. -/
structure Results
    {α β : Type} {limit other : Nat} (values : α → β → Prop)
    (first : Parsed α limit) (second : Parsed β other) : Prop where
  value : values first.value second.value
  rest : List.Forall₂ pairing.Twins first.rest second.rest

/-- Two readings that go the same way and give related values. -/
abbrev Agree
    {α β : Type} {limit other : Nat} (values : α → β → Prop) :
    Except Diagnostic (Parsed α limit) →
      Except Diagnostic (Parsed β other) → Prop :=
  Concur pairing.Faults (pairing.Results values)

variable {pairing}

theorem Twins.payload {first second : Token} (twins : pairing.Twins first second) :
    first.payload = second.payload := by
  rw [Token.payload, Token.payload, twins.text]

theorem Twins.found
    {first second : Token} (twins : pairing.Twins first second)
    (fault : Fault) (late : fault.stage ≠ .lexical) :
    pairing.Faults (fault.reportAt first.position)
      (fault.reportAt second.position) :=
  .found fault late twins.place

/-! ## Readers of single tokens -/

variable {ending other : Ending} {tokens others : List Token}

/-- Whatever stands behind the last token is met by both readings. -/
theorem Endings.meet (endings : pairing.Endings ending other) :
    Concur pairing.Faults pairing.Twins ending other :=
  endings.mono fun _ _ => .met

theorem peek_twins
    (endings : pairing.Endings ending other)
    (twins : List.Forall₂ pairing.Twins tokens others) :
    Concur pairing.Faults pairing.Twins (peek ending tokens)
      (peek other others) := by
  cases twins with
  | nil =>
      exact endings.meet
  | cons same _ =>
      exact .ok same

theorem expect_twins
    (endings : pairing.Endings ending other) (kind : Kind)
    (twins : List.Forall₂ pairing.Twins tokens others) :
    pairing.Agree pairing.Twins (expect ending kind tokens)
      (expect other kind others) := by
  cases twins with
  | nil =>
      exact
        endings.meet.bind fun _ _ last => .error (last.found _ nofun)
  | @cons token next rest later same restTwins =>
      by_cases fits : token.kind = kind
      · have otherFits : next.kind = kind := same.kind ▸ fits
        simp only [expect, fits, otherFits, if_true]
        exact .ok ⟨same, restTwins⟩
      · have otherUnfit : ¬ next.kind = kind := same.kind ▸ fits
        simp only [expect, fits, otherUnfit, if_false]
        exact .error (same.found _ nofun)

theorem accept_twins
    (endings : pairing.Endings ending other) (kind : Kind)
    (twins : List.Forall₂ pairing.Twins tokens others) :
    Concur pairing.Faults (Option.Rel (pairing.Results pairing.Twins))
      (accept ending kind tokens) (accept other kind others) := by
  cases twins with
  | nil =>
      exact endings.meet.bind fun _ _ _ => .ok .none
  | @cons token next rest later same restTwins =>
      by_cases fits : token.kind = kind
      · have otherFits : next.kind = kind := same.kind ▸ fits
        simp only [accept, fits, otherFits, if_true]
        exact .ok (.some ⟨same, restTwins⟩)
      · have otherUnfit : ¬ next.kind = kind := same.kind ▸ fits
        simp only [accept, fits, otherUnfit, if_false]
        exact .ok .none

theorem expectEnd_twins
    (endings : pairing.Endings ending other)
    (twins : List.Forall₂ pairing.Twins tokens others) :
    Concur pairing.Faults Eq (expectEnd ending tokens)
      (expectEnd other others) := by
  cases twins with
  | nil =>
      exact endings.meet.bind fun _ _ _ => .ok rfl
  | cons same _ =>
      exact .error (same.found _ nofun)

end Pairing

end Token

end FlatCode
