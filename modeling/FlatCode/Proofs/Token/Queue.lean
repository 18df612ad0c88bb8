import FlatCode.Proofs.Reading.Token
import FlatCode.Proofs.Token.Origin
import FlatCode.Token.Source

/-!
# A source as a queue of events

A `Source` takes lines on demand.  What it answers can be said without its
lines: the events of a text stand in a queue, and each request looks at the head
of the queue.

* An event is a token or the report of a broken line.  The report of a broken
  line stands before the tokens of that line.
* Reading takes the head away.  Looking at the head takes it away only when it is
  a report.
* Behind the last event stands the end of the input, any number of times.

`source_answers_as_queue` says that no sequence of requests can tell a source
from the queue of its text.  Up to the first report the answers are those of the
token stream of the text.
-/

namespace FlatCode.Token

/-! ## Requests and their answers -/

inductive Request where
  | peek
  | peekKind
  | read
  deriving DecidableEq, Repr

/-- A token, or the report of a broken line. -/
abbrev Event :=
  Except Diagnostic Token

/-- The answer to a request: a token or the kind of one, or a report. -/
inductive Answer where
  | token (answer : Except Diagnostic Token)
  | kind (answer : Except Diagnostic Kind)
  deriving Repr

namespace Answer

def isReport : Answer → Bool
  | .token (.error _) | .kind (.error _) => true
  | .token (.ok _) | .kind (.ok _) => false

end Answer

def Request.answer (request : Request) (event : Event) : Answer :=
  match request with
  | .peek | .read => .token event
  | .peekKind => .kind (event.map Token.kind)

section Runs

variable {State : Type} (step : State → Request → Answer × State)

def after (state : State) (requests : List Request) : State :=
  requests.foldl (fun current request => (step current request).2) state

def answers (state : State) : List Request → List Answer
  | [] => []
  | request :: later =>
      (step state request).1 :: answers (step state request).2 later

@[simp]
theorem after_cons
    (state : State) (request : Request) (later : List Request) :
    after step state (request :: later) =
      after step (step state request).2 later := rfl

end Runs

/-- The answers that belong to the `read` requests of a sequence. -/
def readAnswers : List Request → List Answer → List Answer
  | .read :: requests, answer :: answers => answer :: readAnswers requests answers
  | _ :: requests, _ :: answers => readAnswers requests answers
  | _, _ => []

namespace Source

def answer (source : Source) : Request → Answer × Source
  | .peek => (.token source.peek.1, source.peek.2)
  | .peekKind => (.kind source.peekKind.1, source.peekKind.2)
  | .read => (.token source.read.1, source.read.2)

end Source

/-! ## The queue of a text -/

/-- Events in order, and the token that comes behind all of them. -/
structure Queue where
  events : List Event
  last : Token

namespace Queue

def head (queue : Queue) : Event :=
  queue.events.headD (.ok queue.last)

def tail (queue : Queue) : Queue :=
  { queue with events := queue.events.tail }

/-- Take the head away if it is a report. -/
def settle (queue : Queue) : Queue :=
  match queue.head with
  | .ok _ => queue
  | .error _ => queue.tail

def answer (queue : Queue) (request : Request) : Answer × Queue :=
  match request with
  | .read => (request.answer queue.head, queue.tail)
  | .peek | .peekKind => (request.answer queue.head, queue.settle)

/-- The events of the line with a given number. -/
def lineEvents (number : Nat) (text : List Char) : List Event :=
  match lexLine number text with
  | ⟨tokens, none⟩ => tokens.map .ok
  | ⟨tokens, some column⟩ =>
      .error (Fault.invalidToken.reportAt ⟨number, column⟩) :: tokens.map .ok

def linesEvents (number : Nat) (lines : List (List Char)) : List Event :=
  (lines.zipIdx number).flatMap fun line => lineEvents line.2 line.1

def ofLines (line : Nat) (lines : List (List Char)) : Queue :=
  ⟨linesEvents (line + 1) lines,
    endOfInput ⟨line + lines.length + 1, 1⟩⟩

def ofString (text : String) : Queue :=
  ofLines 0 (Text.lines text.toList)

def prepend (events : List Event) (queue : Queue) : Queue :=
  ⟨events ++ queue.events, queue.last⟩

@[simp]
theorem prepend_nil (queue : Queue) : queue.prepend [] = queue := rfl

/-- The answer to a request tells of the head of the queue. -/
theorem answer_fst (queue : Queue) (request : Request) :
    (queue.answer request).1 = request.answer queue.head := by
  cases request <;> rfl

theorem settle_of_ok
    {queue : Queue} {token : Token} (comes : queue.head = .ok token) :
    queue.settle = queue := by
  rw [settle, comes]

theorem settle_of_error
    {queue : Queue} {diagnostic : Diagnostic}
    (comes : queue.head = .error diagnostic) :
    queue.settle = queue.tail := by
  rw [settle, comes]

theorem ofLines_cons (line : Nat) (text : List Char) (later : List (List Char)) :
    ofLines line (text :: later) =
      (ofLines (line + 1) later).prepend (lineEvents (line + 1) text) := by
  simp only [ofLines, linesEvents, prepend, List.zipIdx_cons,
    List.flatMap_cons, List.length_cons]
  congr 3
  omega

end Queue

/-! ## A source shows a queue -/

namespace Source

/-- The queue that a source offers: what waits to be read and then the events of
the lines that have not been looked at. -/
def queue (source : Source) : Queue :=
  (Queue.ofLines source.line source.unread).prepend (source.pending.map .ok)

/-- A source offers a queue, or it has looked at the end of the input already,
which then waits to be read. -/
inductive Shows (source : Source) (queue : Queue) : Prop where
  | offers (same : queue = source.queue)
  | ended (empty : queue.events = []) (read : source.unread = [])
      (waits : source.pending = [queue.last])
      (place : queue.last = endOfInput ⟨source.line + 1, 1⟩)

/-- The head of a queue was looked at: a report is gone, and a token waits to be
read. -/
structure Looked (result : Event × Source) (queue : Queue) : Prop where
  answer : result.1 = queue.head
  shows : result.2.Shows queue.settle
  waits : ∀ token, queue.head = .ok token →
    ∃ pending, result.2.pending = token :: pending

variable {source : Source} {queue : Queue}

/-- Taking lines looks at the head of their queue. -/
theorem looked_takeLines (line : Nat) (unread : List (List Char)) :
    Looked (takeLines line unread) (Queue.ofLines line unread) := by
  induction unread generalizing line with
  | nil =>
      refine ⟨rfl, .ended rfl rfl rfl rfl, ?_⟩
      rintro token ⟨⟩
      exact ⟨[], rfl⟩
  | cons text unread inductionHypothesis =>
      rw [takeLines, Queue.ofLines_cons, Queue.lineEvents]
      generalize lexLine (line + 1) text = lexed
      obtain ⟨tokens, invalid⟩ := lexed
      cases invalid with
      | some column =>
          exact ⟨rfl, .offers rfl, nofun⟩
      | none =>
          cases tokens with
          | nil =>
              -- A line without tokens adds no event.
              exact inductionHypothesis (line + 1)
          | cons first tokens =>
              refine ⟨rfl, .offers rfl, ?_⟩
              rintro token ⟨⟩
              exact ⟨tokens, rfl⟩

/-- Looking at a source is looking at the head of its queue. -/
theorem Shows.peek (shows : source.Shows queue) :
    Looked source.peek queue := by
  obtain ⟨pending, unread, line⟩ := source
  cases shows with
  | offers same =>
      subst same
      cases pending with
      | nil =>
          exact looked_takeLines line unread
      | cons first pending =>
          refine ⟨rfl, .offers rfl, ?_⟩
          rintro token ⟨⟩
          exact ⟨pending, rfl⟩
  | ended empty read waits place =>
      have comes : queue.head = .ok queue.last := by
        rw [Queue.head, empty]
        rfl
      simp only at read waits
      subst read waits
      refine ⟨comes.symm, ?_, ?_⟩
      · rw [Queue.settle_of_ok comes]
        exact .ended empty rfl rfl place
      · intro token same
        rw [comes] at same
        cases same
        exact ⟨[], rfl⟩

/-- Behind a token that waits stands the rest of the queue. -/
theorem Shows.tail_of_pending
    {token : Token} {pending : List Token} {unread : List (List Char)}
    {line : Nat}
    (shows : Shows ⟨token :: pending, unread, line⟩ queue) :
    Shows ⟨pending, unread, line⟩ queue.tail := by
  cases shows with
  | offers same =>
      subst same
      exact .offers rfl
  | ended empty read waits place =>
      obtain ⟨events, last⟩ := queue
      simp only at empty read waits place
      subst empty read
      obtain ⟨rfl, rfl⟩ := List.cons.inj waits
      subst place
      exact .offers rfl

/-- Reading from a source is reading from its queue. -/
theorem Shows.read (shows : source.Shows queue) :
    source.read.1 = queue.head ∧ source.read.2.Shows queue.tail := by
  obtain ⟨looked, shown, waits⟩ := shows.peek
  rw [Source.read]
  generalize source.peek = result at looked shown waits ⊢
  obtain ⟨answer, ⟨pending, unread, line⟩⟩ := result
  simp only at looked
  subst looked
  cases comes : queue.head with
  | error diagnostic =>
      rw [Queue.settle_of_error comes] at shown
      exact ⟨rfl, shown⟩
  | ok token =>
      rw [Queue.settle_of_ok comes] at shown
      obtain ⟨behind, same⟩ := waits token comes
      simp only at same
      subst same
      exact ⟨rfl, shown.tail_of_pending⟩

/-- A source answers every request as its queue does, and goes on showing it. -/
theorem Shows.answer (shows : source.Shows queue) (request : Request) :
    (source.answer request).1 = (queue.answer request).1 ∧
      (source.answer request).2.Shows (queue.answer request).2 := by
  have looked := shows.peek
  cases request with
  | peek =>
      exact ⟨congrArg Answer.token looked.answer, looked.shows⟩
  | peekKind =>
      refine ⟨?_, looked.shows⟩
      show Answer.kind (source.peek.1.map Token.kind) = _
      rw [looked.answer]
      rfl
  | read =>
      obtain ⟨taken, shown⟩ := shows.read
      exact ⟨congrArg Answer.token taken, shown⟩

theorem Shows.answers
    (shows : source.Shows queue) (requests : List Request) :
    answers Source.answer source requests =
      answers Queue.answer queue requests := by
  induction requests generalizing source queue with
  | nil =>
      rfl
  | cons request later inductionHypothesis =>
      obtain ⟨same, shown⟩ := shows.answer request
      rw [Token.answers, Token.answers, same, inductionHypothesis shown]

theorem Shows.after
    (shows : source.Shows queue) (requests : List Request) :
    (after Source.answer source requests).Shows
      (after Queue.answer queue requests) := by
  induction requests generalizing source queue with
  | nil =>
      exact shows
  | cons request later inductionHypothesis =>
      exact inductionHypothesis (shows.answer request).2

theorem ofString_shows (text : String) :
    (Source.ofString text).Shows (Queue.ofString text) :=
  .offers rfl

end Source

/-! ## The stream of a text -/

namespace Stream

/-- What comes next in a stream behind a number of tokens. -/
def event (stream : Stream) (index : Nat) : Event :=
  match stream.tokens[index]? with
  | some token => .ok token
  | none => stream.ending

end Stream

namespace Queue

/-- A queue is empty unless a report comes first. -/
def Stops (queue : Queue) : Prop :=
  ∀ token, queue.head = .ok token → queue.events = []

theorem stops_of_error
    {queue : Queue} {diagnostic : Diagnostic}
    (comes : queue.head = .error diagnostic) :
    queue.Stops := by
  intro token same
  rw [comes] at same
  cases same

/-- The queue of lines holds the tokens of their stream, and then comes the
ending of the stream. -/
theorem exists_ofLines_eq_stream (line : Nat) (lines : List (List Char)) :
    ∃ later : Queue,
      ofLines line lines =
          later.prepend ((Stream.ofLines line lines).tokens.map .ok) ∧
        later.head = (Stream.ofLines line lines).ending ∧ later.Stops := by
  induction lines generalizing line with
  | nil =>
      exact ⟨ofLines line [], rfl, rfl, fun _ _ => rfl⟩
  | cons text lines inductionHypothesis =>
      rw [ofLines_cons, lineEvents, Stream.ofLines]
      generalize lexLine (line + 1) text = lexed
      obtain ⟨tokens, invalid⟩ := lexed
      cases invalid with
      | some column =>
          refine
            ⟨(ofLines (line + 1) lines).prepend (.error _ :: tokens.map .ok),
              rfl, rfl, stops_of_error rfl⟩
      | none =>
          obtain ⟨later, same, ends, stops⟩ := inductionHypothesis (line + 1)
          refine ⟨later, ?_, ends, stops⟩
          rw [same]
          simp [prepend]

theorem exists_ofString_eq_stream (text : String) :
    ∃ later : Queue,
      ofString text =
          later.prepend ((Stream.ofString text).tokens.map .ok) ∧
        later.head = (Stream.ofString text).ending ∧ later.Stops :=
  exists_ofLines_eq_stream 0 (Text.lines text.toList)

variable {later : Queue}

/-- A request that is not answered by a report takes at most one token from the
front: one if it reads, and none behind the last token. -/
theorem answer_prepend
    (stops : later.Stops) (tokens : List Token) {request : Request}
    (clean :
      ((later.prepend (tokens.map .ok)).answer request).1.isReport = false) :
    ((later.prepend (tokens.map .ok)).answer request).2 =
      later.prepend ((tokens.drop ([request].count .read)).map .ok) := by
  cases tokens with
  | cons token tokens =>
      cases request <;> rfl
  | nil =>
      rw [List.map_nil, prepend_nil] at clean ⊢
      cases comes : later.head with
      | error diagnostic =>
          cases request <;>
            simp [answer, Request.answer, comes, Answer.isReport,
              Except.map] at clean
      | ok token =>
          obtain ⟨events, last⟩ := later
          cases stops token comes
          cases request <;> rfl

/-- As long as no report is answered, requests take tokens from the front. -/
theorem after_prepend
    (stops : later.Stops) (tokens : List Token) (requests : List Request)
    (clean :
      ∀ answered ∈ answers answer (later.prepend (tokens.map .ok)) requests,
        answered.isReport = false) :
    after answer (later.prepend (tokens.map .ok)) requests =
      later.prepend ((tokens.drop (requests.count .read)).map .ok) := by
  induction requests generalizing tokens with
  | nil =>
      rfl
  | cons request requests inductionHypothesis =>
      rw [answers, List.forall_mem_cons] at clean
      obtain ⟨firstClean, othersClean⟩ := clean
      rw [answer_prepend stops tokens firstClean] at othersClean
      rw [after_cons, answer_prepend stops tokens firstClean,
        inductionHypothesis _ othersClean, List.drop_drop,
        ← List.count_append, List.singleton_append]

/-- What comes next behind tokens that were taken. -/
theorem head_prepend_drop
    {stream : Stream} (ends : later.head = stream.ending) (index : Nat) :
    (later.prepend ((stream.tokens.drop index).map .ok)).head =
      stream.event index := by
  rw [Stream.event, ← List.head?_drop, ← ends]
  cases stream.tokens.drop index <;> rfl

end Queue

/-- Until the first report, a source answers with the tokens of the stream of its
text in order, and then with the ending of the stream. -/
theorem answer_eq_stream_event
    {text : String} {before : List Request}
    (clean :
      ∀ answered ∈ answers Source.answer (.ofString text) before,
        answered.isReport = false)
    (request : Request) :
    ((after Source.answer (.ofString text) before).answer request).1 =
      request.answer ((Stream.ofString text).event (before.count .read)) := by
  obtain ⟨later, same, ends, stops⟩ := Queue.exists_ofString_eq_stream text
  have shown := Source.ofString_shows text
  rw [shown.answers, same] at clean
  have answered := ((shown.after before).answer request).1
  rw [answered, Queue.answer_fst, same,
    Queue.after_prepend stops _ before clean, Queue.head_prepend_drop ends]

/-! ## Texts without a broken line -/

theorem isReport_answer_ok (request : Request) (token : Token) :
    (request.answer (.ok token)).isReport = false := by
  cases request <;> rfl

namespace Queue

/-- The queue of tokens behind which the same token comes for ever. -/
def ofTokens (tokens : List Token) (last : Token) : Queue :=
  prepend (tokens.map .ok) ⟨[], last⟩

variable (tokens : List Token) (last : Token)

theorem head_ofTokens :
    (ofTokens tokens last).head = .ok (tokens.headD last) := by
  cases tokens <;> rfl

theorem answer_ofTokens (request : Request) :
    (ofTokens tokens last).answer request =
      (request.answer (.ok (tokens.headD last)),
        ofTokens (tokens.drop ([request].count .read)) last) := by
  have answered := answer_fst (ofTokens tokens last) request
  rw [head_ofTokens] at answered
  refine Prod.ext answered (answer_prepend (fun _ _ => rfl) tokens ?_)
  show ((ofTokens tokens last).answer request).1.isReport = false
  rw [answered]
  exact isReport_answer_ok request _

theorem answers_ofTokens_clean (requests : List Request) :
    ∀ answered ∈ answers answer (ofTokens tokens last) requests,
      answered.isReport = false := by
  induction requests generalizing tokens with
  | nil =>
      simp [answers]
  | cons request requests inductionHypothesis =>
      rw [answers, List.forall_mem_cons, answer_ofTokens]
      exact ⟨isReport_answer_ok request _, inductionHypothesis _⟩

/-- The reads of a queue of tokens are the tokens in order, and then the token
behind them. -/
theorem readAnswers_ofTokens (requests : List Request) :
    readAnswers requests (answers answer (ofTokens tokens last) requests) =
      (List.range (requests.count .read)).map fun index =>
        .token (.ok (tokens.getD index last)) := by
  induction requests generalizing tokens with
  | nil =>
      rfl
  | cons request requests inductionHypothesis =>
      rw [answers, answer_ofTokens]
      cases request with
      | peek | peekKind =>
          exact inductionHypothesis tokens
      | read =>
          have counted :
              (Request.read :: requests).count .read =
                requests.count .read + 1 :=
            List.count_cons_self
          rw [counted, List.range_succ_eq_map, List.map_cons, List.map_map,
            readAnswers]
          refine List.cons_eq_cons.mpr ⟨?_, ?_⟩
          · cases tokens <;> rfl
          · refine (inductionHypothesis _).trans ?_
            refine List.map_congr_left fun index _ => ?_
            cases tokens <;> rfl

end Queue

/-- Behind the tokens comes the last one, whether it stands in the list or not. -/
theorem getD_append_last (tokens : List Token) (last : Token) (index : Nat) :
    (tokens ++ [last]).getD index last = tokens.getD index last := by
  rw [List.getD_eq_getElem?_getD, List.getD_eq_getElem?_getD]
  by_cases inside : index < tokens.length
  · rw [List.getElem?_append_left inside]
  · have behind : tokens.length ≤ index := Nat.le_of_not_lt inside
    rw [List.getElem?_append_right behind, List.getElem?_eq_none behind,
      List.getElem?_singleton]
    split
    · rfl
    · rfl

/-- The tokens of a text without a broken line are those of its stream with the
end of the input behind them, and its queue holds nothing else. -/
theorem queue_of_tokenize
    {text : String} {tokens : List Token}
    (lexed : tokenize text = .ok tokens) :
    ∃ last,
      last = endOfInput ⟨(Text.lines text.toList).length + 1, 1⟩ ∧
        tokens = (Stream.ofString text).tokens ++ [last] ∧
        Queue.ofString text = .ofTokens (Stream.ofString text).tokens last := by
  obtain ⟨⟨events, last⟩, same, ends, stops⟩ :=
    Queue.exists_ofString_eq_stream text
  obtain ⟨token, ended, split⟩ := exists_ending_of_tokenize lexed
  have comes : Queue.head ⟨events, last⟩ = .ok token := ends.trans ended
  have empty : events = [] := stops token comes
  subst empty
  cases comes
  refine ⟨last, ?_, split, same⟩
  have place : (Queue.ofString text).last = last := by rw [same]; rfl
  rw [← place]
  simp [Queue.ofString, Queue.ofLines]

/-! ## The main statement -/

/-- A source answers every sequence of requests as the queue of its text does.
If no line of the text is broken, the reads are its tokens in order and then the
end of the input again and again, and looking shows what the next read gives. -/
theorem source_answers_as_queue (text : String) :
    (∀ requests,
      answers Source.answer (.ofString text) requests =
        answers Queue.answer (.ofString text) requests) ∧
    ∀ tokens, tokenize text = .ok tokens →
      (∀ requests,
        readAnswers requests
            (answers Source.answer (.ofString text) requests) =
          (List.range (requests.count .read)).map fun index =>
            .token (.ok (tokens.getD index
              (endOfInput ⟨(Text.lines text.toList).length + 1, 1⟩)))) ∧
      ∀ before request looks, .read ∉ looks →
        ((after Source.answer (.ofString text) before).answer request).1 =
          request.answer
            (after Source.answer (.ofString text) (before ++ looks)).read.1 := by
  have shown := Source.ofString_shows text
  refine ⟨shown.answers, ?_⟩
  intro tokens lexed
  obtain ⟨last, place, split, same⟩ := queue_of_tokenize lexed
  constructor
  · intro requests
    rw [shown.answers, same, Queue.readAnswers_ofTokens, ← place, split]
    refine List.map_congr_left fun index _ => ?_
    rw [getD_append_last]
  · intro before request looks unread
    have clean (requests : List Request) :
        ∀ answered ∈ answers Source.answer (.ofString text) requests,
          answered.isReport = false := by
      rw [shown.answers, same]
      exact Queue.answers_ofTokens_clean _ _ requests
    have looked := answer_eq_stream_event (clean before) request
    have taken := answer_eq_stream_event (clean (before ++ looks)) .read
    rw [List.count_append, List.count_eq_zero.mpr unread] at taken
    rw [looked, Answer.token.inj taken]
    rfl

/-- The second of three lines holds only a comment. -/
theorem source_answers_as_queue_of_three_lines :
    ∃ tokens,
      tokenize "a\n# b\n;" = .ok tokens ∧
        readAnswers [.peek, .read, .read, .peekKind, .read, .read]
            (answers Source.answer (.ofString "a\n# b\n;")
              [.peek, .read, .read, .peekKind, .read, .read]) =
          [.token (.ok ⟨.identifier, some "a", ⟨1, 1⟩⟩),
            .token (.ok ⟨.semicolon, none, ⟨3, 1⟩⟩),
            .token (.ok (endOfInput ⟨4, 1⟩)),
            .token (.ok (endOfInput ⟨4, 1⟩))] ∧
        ((after Source.answer (.ofString "a\n# b\n;") [.read]).answer
            .peekKind).1 =
          Request.peekKind.answer
            (after Source.answer (.ofString "a\n# b\n;")
              ([.read] ++ [.peekKind])).read.1 := by
  obtain ⟨tokens, lexed, same⟩ :=
    exists_ok_of_any
      (show ((tokenize "a\n# b\n;").toOption.any fun tokens =>
          decide
            (tokens =
              [⟨.identifier, some "a", ⟨1, 1⟩⟩, ⟨.semicolon, none, ⟨3, 1⟩⟩,
                endOfInput ⟨4, 1⟩])) = true by
        decide +kernel)
  obtain ⟨reads, looks⟩ :=
    (source_answers_as_queue "a\n# b\n;").2 tokens lexed
  refine ⟨tokens, lexed, ?_, looks [.read] .peekKind [.peekKind] (by decide)⟩
  rw [reads, of_decide_eq_true same]
  rfl

/-- A broken line is reported before its tokens are handed out. -/
example :
    (answers Source.answer (.ofString "a ? b\nc") [.peek, .peek, .read, .read]).map
        Answer.isReport =
      [true, false, false, false] := by
  decide +kernel

end FlatCode.Token
