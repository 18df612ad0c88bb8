import FlatCode.Proofs.Token.Queue

/-!
# Reading on demand

A `Reader` takes tokens from a source one by one and keeps a record of those it has
taken.  It looks at the next token before it decides whether to take it, and nothing
is ever put back.

Readers call each other, and nothing in them says that they end.  So each gets fuel,
one unit for each call that is nested in it, and gives `none` when it is used up: a
reader that would call for ever gives `none` with any amount.

`Ends` says of a reader that it ends on every session that offers given tokens with a
given ending behind them:

* with a value, in front of the tokens that are left; the tokens before them were
  taken once each and in order, and the end of the input is not among them;
* or with a report, when it has taken tokens from the front in order, and at most
  once the end of the input behind all of them.

`Follows` says in addition that the reader gives what a reader of token lists gives.
-/

namespace FlatCode.Demand

open Token (Ending Kind Parsed Queue Source)

/-! ## Sessions and readers -/

/-- A source of tokens with the tokens taken from it up to now, in order. -/
structure Session where
  source : Source
  taken : List Token

namespace Session

def ofString (text : String) : Session :=
  ⟨.ofString text, []⟩

/-- A session offers the given tokens, and behind them the end of the input or a
report. -/
structure Offers
    (session : Session) (tokens : List Token) (ending : Ending) : Prop where
  isEnd : ∀ last, ending = .ok last → last.kind = .eof
  queue :
    ∃ later : Queue,
      later.head = ending ∧
        session.source.Shows (later.prepend (tokens.map .ok))

end Session

/-- A queue is tokens in front of a report or of the last token. -/
theorem exists_eq_prepend (queue : Queue) :
    ∃ (tokens : List Token) (later : Queue),
      queue = later.prepend (tokens.map .ok) ∧
        (later.events = [] ∨ ∃ report, later.head = .error report) := by
  obtain ⟨events, last⟩ := queue
  induction events with
  | nil =>
      exact ⟨[], ⟨[], last⟩, rfl, Or.inl rfl⟩
  | cons event events inductionHypothesis =>
      cases event with
      | error report =>
          exact ⟨[], ⟨.error report :: events, last⟩, rfl, Or.inr ⟨report, rfl⟩⟩
      | ok token =>
          obtain ⟨tokens, later, same, stops⟩ := inductionHypothesis
          obtain ⟨rfl, rfl⟩ := Queue.mk.inj same
          exact ⟨token :: tokens, later, rfl, stops⟩

/-- Whatever state a source is in, it offers some tokens and then the end of the input
or a report. -/
theorem Session.exists_offers (session : Session) :
    ∃ tokens ending, session.Offers tokens ending := by
  obtain ⟨tokens, later, same, stops⟩ := exists_eq_prepend session.source.queue
  have isEnd : later.last.kind = .eof := by
    rw [show later.last = session.source.queue.last from
      (congrArg Queue.last same).symm]
    rfl
  refine ⟨tokens, later.head, ?_, later, rfl, same ▸ .offers rfl⟩
  intro last comes
  rcases stops with empty | ⟨report, reports⟩
  · rw [Queue.head, empty] at comes
    cases comes
    exact isEnd
  · rw [reports] at comes
    cases comes

/-- A computation on a session that gives a value or a report, if it ends. -/
abbrev Reader :=
  ExceptT Diagnostic (StateT Session Option)

def exhausted {α : Type} : Reader α := fun _ => none

def peek : Reader Kind := fun session =>
  some (session.source.peekKind.1, ⟨session.source.peekKind.2, session.taken⟩)

def read : Reader Token := fun session =>
  match session.source.read with
  | (.ok token, after) => some (.ok token, ⟨after, session.taken ++ [token]⟩)
  | (.error report, after) => some (.error report, ⟨after, session.taken⟩)

def accept (kind : Kind) : Reader Bool := do
  if (← peek) = kind then
    let _ ← read
    return true
  else
    return false

def expect (kind : Kind) : Reader Token := do
  let token ← read
  if token.kind = kind then
    return token
  else
    throw ((Fault.expected kind).reportAt token.position)

/-- The second reader goes on where the first one has given a value. -/
theorem run_bind {α β : Type} (reader : Reader α) (next : α → Reader β)
    (session : Session) :
    (reader >>= next) session =
      (reader session).bind fun
        | (.ok value, after) => next value after
        | (.error report, after) => some (.error report, after) := by
  show (reader session).bind _ = _
  congr 1
  funext result
  obtain ⟨_ | value, after⟩ := result <;> rfl

/-! ## How a reader ends -/

def lastOf (ending : Ending) : List Token :=
  ending.toOption.toList

/-- The tokens before `rest` were taken, and none of them ends the input. -/
structure Advanced
    (ending : Ending) (session after : Session) (tokens rest : List Token) :
    Prop where
  taken :
    ∃ taken,
      tokens = taken ++ rest ∧ (∀ token ∈ taken, token.kind ≠ .eof) ∧
        after.taken = session.taken ++ taken
  offers : after.Offers rest ending

/-- Tokens were taken from the front, and perhaps the last one behind them. -/
def Stopped
    (ending : Ending) (session after : Session) (tokens : List Token) : Prop :=
  ∃ taken,
    after.taken = session.taken ++ taken ∧ taken <+: tokens ++ lastOf ending

section Rules

variable {α β : Type} {ending : Ending} {tokens rest : List Token}
  {session between after : Session}

theorem Advanced.refl (offers : session.Offers tokens ending) :
    Advanced ending session session tokens tokens :=
  ⟨⟨[], rfl, by simp, by simp⟩, offers⟩

theorem Advanced.trans
    {middle : List Token}
    (first : Advanced ending session between tokens middle)
    (second : Advanced ending between after middle rest) :
    Advanced ending session after tokens rest := by
  obtain ⟨early, rfl, earlyInner, earlyTaken⟩ := first.taken
  obtain ⟨late, rfl, lateInner, lateTaken⟩ := second.taken
  refine ⟨⟨early ++ late, ?_, ?_, ?_⟩, second.offers⟩
  · rw [List.append_assoc]
  · exact List.forall_mem_append.mpr ⟨earlyInner, lateInner⟩
  · rw [lateTaken, earlyTaken, List.append_assoc]

theorem Advanced.stop
    (first : Advanced ending session between tokens rest)
    (second : Stopped ending between after rest) :
    Stopped ending session after tokens := by
  obtain ⟨early, rfl, _, earlyTaken⟩ := first.taken
  obtain ⟨late, lateTaken, reached⟩ := second
  refine ⟨early ++ late, ?_, ?_⟩
  · rw [lateTaken, earlyTaken, List.append_assoc]
  · rw [List.append_assoc]
    exact (List.prefix_append_right_inj early).mpr reached

theorem Stopped.refl : Stopped ending session session tokens :=
  ⟨[], by simp, List.nil_prefix⟩

/-- A run that has ended, with a value in front of some rest or with a report. -/
inductive Ended
    (ending : Ending) (session : Session) (tokens : List Token)
    (gives : α → List Token → Prop) (reports : Diagnostic → Prop) :
    Option (Except Diagnostic α × Session) → Prop
  | value {value : α} {rest : List Token} {after : Session}
      (advanced : Advanced ending session after tokens rest)
      (given : gives value rest) :
      Ended ending session tokens gives reports (some (.ok value, after))
  | report {report : Diagnostic} {after : Session}
      (stopped : Stopped ending session after tokens)
      (reported : reports report) :
      Ended ending session tokens gives reports (some (.error report, after))

variable {gives : β → List Token → Prop} {reports : Diagnostic → Prop}

/-- A run that goes on behind tokens that were taken before. -/
theorem Ended.behind
    {result : Option (Except Diagnostic β × Session)}
    (ended : Ended ending between rest gives reports result)
    (advanced : Advanced ending session between tokens rest) :
    Ended ending session tokens gives reports result := by
  cases ended with
  | value onwards given => exact .value (advanced.trans onwards) given
  | report stopped reported => exact .report (advanced.stop stopped) reported

/-- A reader ends on every session that offers the given tokens and ending. -/
def Ends
    (ending : Ending) (tokens : List Token) (reader : Reader α)
    (gives : α → List Token → Prop) (reports : Diagnostic → Prop) : Prop :=
  ∀ session : Session, session.Offers tokens ending →
    Ended ending session tokens gives reports (reader session)

variable {reader : Reader α} {next : α → Reader β}
  {middle : α → List Token → Prop} {early : Diagnostic → Prop}

namespace Ends

theorem give {value : β} (given : gives value tokens) :
    Ends ending tokens (pure value) gives reports :=
  fun _ offers => .value (.refl offers) given

theorem refuse {report : Diagnostic} (reported : reports report) :
    Ends ending tokens (throw report : Reader β) gives reports :=
  fun _ _ => .report .refl reported

/-- Two readers one after the other. -/
theorem bind
    (first : Ends ending tokens reader middle early)
    (second :
      ∀ value rest, middle value rest →
        Ends ending rest (next value) gives reports)
    (passed : ∀ report, early report → reports report) :
    Ends ending tokens (reader >>= next) gives reports := by
  intro session offers
  have ended := first session offers
  rw [run_bind]
  generalize reader session = result at ended
  cases ended with
  | value advanced given =>
      exact (second _ _ given _ advanced.offers).behind advanced
  | report stopped reported =>
      exact .report stopped (passed _ reported)

theorem mono
    {other : α → List Token → Prop}
    (ends : Ends ending tokens reader middle early)
    (weaker : ∀ value rest, middle value rest → other value rest)
    (passed : ∀ report, early report → reports report) :
    Ends ending tokens reader other reports := by
  intro session offers
  have ended := ends session offers
  generalize reader session = result at ended
  cases ended with
  | value advanced given => exact .value advanced (weaker _ _ given)
  | report stopped reported => exact .report stopped (passed _ reported)

end Ends

/-! ## The next token -/

theorem Session.Offers.peek (offers : session.Offers tokens ending) :
    ∃ after : Session,
      Demand.peek session =
          some ((Token.peek ending tokens).map Token.kind, after) ∧
        after.taken = session.taken ∧
        ∀ token, Token.peek ending tokens = .ok token →
          after.Offers tokens ending := by
  obtain ⟨later, comes, shows⟩ := offers.queue
  have looked := shows.peek
  have next : (later.prepend (tokens.map .ok)).head = Token.peek ending tokens := by
    cases tokens with
    | nil => exact comes
    | cons token rest => rfl
  refine ⟨⟨session.source.peek.2, session.taken⟩, ?_, rfl, ?_⟩
  · rw [← next, ← looked.answer]
    rfl
  · intro token found
    refine ⟨offers.isEnd, later, comes, ?_⟩
    have settled := looked.shows
    rwa [Queue.settle_of_ok (next.trans found)] at settled

theorem Session.Offers.read_cons
    {token : Token} (offers : session.Offers (token :: tokens) ending) :
    ∃ after : Session,
      Demand.read session = some (.ok token, after) ∧
        after.taken = session.taken ++ [token] ∧
        after.Offers tokens ending := by
  obtain ⟨later, comes, shows⟩ := offers.queue
  obtain ⟨answer, shown⟩ := shows.read
  refine ⟨⟨session.source.read.2, session.taken ++ [token]⟩, ?_, rfl, ?_⟩
  · rw [Demand.read]
    generalize session.source.read = result at answer
    obtain ⟨_, after⟩ := result
    cases answer
    rfl
  · exact ⟨offers.isEnd, later, comes, shown⟩

theorem Session.Offers.read_nil (offers : session.Offers [] ending) :
    ∃ after : Session,
      Demand.read session = some (ending, after) ∧
        after.taken = session.taken ++ lastOf ending := by
  obtain ⟨later, rfl, shows⟩ := offers.queue
  obtain ⟨answer, -⟩ := shows.read
  rw [List.map_nil, Queue.prepend_nil] at answer
  rw [← answer, Demand.read]
  generalize session.source.read = result
  obtain ⟨_ | token, after⟩ := result
  · exact ⟨_, rfl, (List.append_nil _).symm⟩
  · exact ⟨_, rfl, rfl⟩

namespace Ends

variable {follow : Kind → Reader β} {handle : Token → Reader β}

/-- What comes next is looked at and left in place. -/
theorem look
    (found : ∀ token, Token.peek ending tokens = .ok token →
      (tokens = [] → token.kind = .eof) →
        Ends ending tokens (follow token.kind) gives reports)
    (passed : ∀ report, Token.peek ending tokens = .error report →
      reports report) :
    Ends ending tokens (peek >>= follow) gives reports := by
  intro session offers
  obtain ⟨between, looked, same, still⟩ := offers.peek
  rw [run_bind, looked]
  cases comes : Token.peek ending tokens with
  | error report =>
      exact .report ⟨[], by simpa using same, List.nil_prefix⟩ (passed _ comes)
  | ok token =>
      have advanced : Advanced ending session between tokens tokens :=
        ⟨⟨[], rfl, by simp, by simpa using same⟩, still _ comes⟩
      have atEnd : tokens = [] → token.kind = .eof := by
        rintro rfl
        exact offers.isEnd token comes
      exact (found _ comes atEnd _ advanced.offers).behind advanced

theorem look_front
    {token : Token}
    (onwards : Ends ending (token :: tokens) (follow token.kind) gives reports) :
    Ends ending (token :: tokens) (peek >>= follow) gives reports := by
  refine look ?_ ?_
  · rintro _ ⟨⟩ -
    exact onwards
  · rintro _ ⟨⟩

/-- A token is taken that does not end the input. -/
theorem take
    {token : Token} (inner : token.kind ≠ .eof)
    (onwards : Ends ending tokens (handle token) gives reports) :
    Ends ending (token :: tokens) (read >>= handle) gives reports := by
  intro session offers
  obtain ⟨between, answered, same, still⟩ := offers.read_cons
  have advanced : Advanced ending session between (token :: tokens) tokens :=
    ⟨⟨[token], rfl, by simpa using inner, same⟩, still⟩
  rw [run_bind, answered]
  exact (onwards _ still).behind advanced

/-- A token is taken and refused. -/
theorem take_refused
    {token : Token} {report : Diagnostic} (refuses : handle token = throw report)
    (reported : reports report) :
    Ends ending (token :: tokens) (read >>= handle) gives reports := by
  intro session offers
  obtain ⟨between, answered, same, -⟩ := offers.read_cons
  rw [run_bind, answered]
  show Ended ending session (token :: tokens) gives reports (handle token between)
  rw [refuses]
  exact .report ⟨[token], same, by simp⟩ reported

/-- A token is taken that was expected. -/
theorem take_expected
    {token : Token} {kind : Kind} (front : tokens = token :: rest)
    (fits : token.kind = kind) (inner : kind ≠ .eof)
    (onwards : Ends ending rest (handle token) gives reports) :
    Ends ending tokens (expect kind >>= handle) gives reports := by
  subst front
  rw [expect, bind_assoc]
  refine take (fits ▸ inner) ?_
  rw [if_pos fits]
  exact onwards

theorem take_accepted
    {token : Token} {kind : Kind} {follow : Bool → Reader β}
    (fits : token.kind = kind) (inner : kind ≠ .eof)
    (onwards : Ends ending tokens (follow true) gives reports) :
    Ends ending (token :: tokens) (accept kind >>= follow) gives reports := by
  rw [accept, bind_assoc]
  refine look_front ?_
  rw [if_pos fits, bind_assoc]
  exact take (fits ▸ inner) onwards

/-- The end of the input is taken and refused, or there is a report in its place. -/
theorem take_last
    (refuses : ∀ last, ending = .ok last → last.kind = .eof →
      ∃ report, handle last = throw report ∧ reports report)
    (passed : ∀ report, ending = .error report → reports report) :
    Ends ending [] (read >>= handle) gives reports := by
  intro session offers
  obtain ⟨between, answered, same⟩ := offers.read_nil
  have stopped : Stopped ending session between [] :=
    ⟨lastOf ending, same, List.prefix_refl _⟩
  rw [run_bind, answered]
  cases ending with
  | error report =>
      exact .report stopped (passed _ rfl)
  | ok last =>
      obtain ⟨report, refused, reported⟩ :=
        refuses last rfl (offers.isEnd last rfl)
      show Ended (.ok last) session [] gives reports (handle last between)
      rw [refused]
      exact .report stopped reported

end Ends

/-! ## Readers of token lists -/

variable {limit other : Nat} {listed : Except Diagnostic (Parsed α limit)}
  {listedNext : Parsed α limit → Except Diagnostic (Parsed β other)}

/-- A reader ends and gives what a reader of the token list gives. -/
def Follows
    (ending : Ending) (tokens : List Token) (reader : Reader α)
    (listed : Except Diagnostic (Parsed α limit)) : Prop :=
  Ends ending tokens reader
    (fun value rest =>
      ∃ parsed, listed = .ok parsed ∧ parsed.value = value ∧ parsed.rest = rest)
    (fun report => listed = .error report)

namespace Follows

theorem give
    (parsed : Parsed β other) {value : β} (given : parsed.value = value)
    (left : parsed.rest = tokens) :
    Follows ending tokens (pure value) (.ok parsed) :=
  Ends.give ⟨parsed, rfl, given, left⟩

theorem bind
    (first : Follows ending tokens reader listed)
    (second : ∀ parsed,
      Follows ending parsed.rest (next parsed.value) (listedNext parsed)) :
    Follows ending tokens (reader >>= next) (listed >>= listedNext) := by
  refine Ends.bind first ?_ ?_
  · rintro _ _ ⟨parsed, rfl, rfl, rfl⟩
    exact second parsed
  · rintro report rfl
    rfl

/-- A result that is only put under another limit. -/
theorem same
    {change : Parsed α limit → Parsed α other}
    (first : Follows ending tokens reader listed)
    (value : ∀ parsed, (change parsed).value = parsed.value)
    (rest : ∀ parsed, (change parsed).rest = parsed.rest) :
    Follows ending tokens reader (listed >>= fun parsed => .ok (change parsed)) := by
  refine Ends.mono first ?_ ?_
  · rintro _ _ ⟨parsed, rfl, rfl, rfl⟩
    exact ⟨change parsed, rfl, value parsed, rest parsed⟩
  · rintro report rfl
    rfl

/-- A computation that takes no token. -/
theorem lift
    {γ : Type} {computed : Except Diagnostic γ} {follow : γ → Reader β}
    {listedFollow : γ → Except Diagnostic (Parsed β other)}
    (onwards : ∀ value,
      Follows ending tokens (follow value) (listedFollow value)) :
    Follows ending tokens (liftExcept computed >>= follow)
      (computed >>= listedFollow) := by
  cases computed with
  | error report => exact fun _ _ => .report .refl rfl
  | ok value => exact onwards value

theorem look
    {follow : Kind → Reader β}
    {listedFollow : Token → Except Diagnostic (Parsed β other)}
    (onwards : ∀ token, Token.peek ending tokens = .ok token →
      Follows ending tokens (follow token.kind) (listedFollow token)) :
    Follows ending tokens (peek >>= follow)
      (Token.peek ending tokens >>= listedFollow) := by
  refine Ends.look ?_ ?_
  · intro token found _
    rw [found]
    exact onwards token found
  · intro report found
    rw [found]
    rfl

theorem expect
    {kind : Kind} (inner : kind ≠ .eof) :
    Follows ending tokens (Demand.expect kind)
      (Token.expect ending kind tokens) := by
  cases tokens with
  | nil =>
      refine Ends.take_last ?_ ?_
      · rintro last rfl atEnd
        have unfit : last.kind ≠ kind := atEnd ▸ inner.symm
        exact ⟨_, if_neg unfit, rfl⟩
      · rintro report rfl
        rfl
  | cons token rest =>
      by_cases fits : token.kind = kind
      · refine Ends.take (fits ▸ inner) ?_
        simp only [Token.expect, fits, if_true]
        exact give (.stay token rest) rfl rfl
      · refine Ends.take_refused (if_neg fits) ?_
        simp only [Token.expect, fits, if_false]

/-- A token of one particular kind is left in place if it comes next. -/
theorem glance
    {kind : Kind} {follow : Kind → Reader β} (inner : kind ≠ .eof)
    {listedFollow :
      Option (Parsed Token tokens.length) → Except Diagnostic (Parsed β other)}
    (found : ∀ token : Parsed Token tokens.length,
      tokens = token.value :: token.rest → token.value.kind = kind →
        Follows ending tokens (follow kind) (listedFollow (some token)))
    (missing : ∀ next, next ≠ kind →
      Follows ending tokens (follow next) (listedFollow none)) :
    Follows ending tokens (peek >>= follow)
      (Token.accept ending kind tokens >>= listedFollow) := by
  cases tokens with
  | nil =>
      refine Ends.look ?_ ?_
      · rintro last rfl atEnd
        exact missing _ (atEnd rfl ▸ inner.symm)
      · rintro report rfl
        rfl
  | cons token rest =>
      refine Ends.look_front ?_
      by_cases fits : token.kind = kind
      · rw [fits, Token.accept, if_pos fits]
        exact found (.stay token rest) rfl fits
      · rw [Token.accept, if_neg fits]
        exact missing _ fits

theorem accept
    {kind : Kind} {follow : Bool → Reader β} (inner : kind ≠ .eof)
    {listedFollow :
      Option (Parsed Token tokens.length) → Except Diagnostic (Parsed β other)}
    (taken : ∀ token,
      Follows ending token.rest (follow true) (listedFollow (some token)))
    (left : Follows ending tokens (follow false) (listedFollow none)) :
    Follows ending tokens (Demand.accept kind >>= follow)
      (Token.accept ending kind tokens >>= listedFollow) := by
  cases tokens with
  | nil =>
      rw [Demand.accept, bind_assoc]
      refine Ends.look ?_ ?_
      · rintro last rfl atEnd
        have unfit : last.kind ≠ kind := atEnd rfl ▸ inner.symm
        rw [if_neg unfit, pure_bind]
        exact left
      · rintro report rfl
        rfl
  | cons token rest =>
      by_cases fits : token.kind = kind
      · rw [Token.accept, if_pos fits]
        exact Ends.take_accepted fits inner (taken (.stay token rest))
      · rw [Demand.accept, bind_assoc, Token.accept, if_neg fits]
        refine Ends.look_front ?_
        rw [if_neg fits, pure_bind]
        exact left

end Follows

end Rules

end FlatCode.Demand
