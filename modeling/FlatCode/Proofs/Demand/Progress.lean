import FlatCode.Proofs.Demand.Program
import FlatCode.Proofs.Grammar.Accepted
import FlatCode.Proofs.Token.Partition

/-!
# Reading makes progress and ends

Whatever tokens a session offers, and whatever stands behind them:

* each reader of an expression, a statement or a function ends, gives what its partner
  on token lists gives, and pays for a value with at least one token, never with the
  end of the input;
* one turn of a loop takes at least one token, unless it leaves the loop, and then it
  takes none.

So the reader of programs ends on every text, in fuel that is proportional to the
number of tokens.  It gives what is read from the token stream of the text, and the
tokens it has taken are tokens of the stream from its start on, each once and in order,
with the end of the input as the last one at most.
-/

namespace FlatCode.Demand

open Token (Ending Kind Parsed Stream)

/-! ## Progress -/

def fuelFor (tokens : List Token) : Nat :=
  32 * (tokens.length + 1)

/-- A reader ends and gives what its partner gives, and a value costs at least one
token. -/
def Progresses
    {α : Type} (reader : Nat → Reader α)
    (listed :
      Ending → (tokens : List Token) →
        Except Diagnostic (Parsed α tokens.length)) :
    Prop :=
  ∀ ending tokens fuel, fuelFor tokens ≤ fuel →
    Ends ending tokens (reader fuel)
      (fun value rest =>
        rest.length < tokens.length ∧
          ∃ parsed,
            listed ending tokens = .ok parsed ∧ parsed.value = value ∧
              parsed.rest = rest)
      (fun report => listed ending tokens = .error report)

/-- One turn of a loop ends.  It takes a token, unless it leaves the loop and takes
nothing. -/
def TurnProgresses
    {α : Type} (turn : Nat → Reader α) (leaves : α → Prop) : Prop :=
  ∀ ending tokens fuel, fuelFor tokens ≤ fuel →
    Ends ending tokens (turn fuel)
      (fun outcome rest =>
        (leaves outcome → rest = tokens) ∧
          (¬ leaves outcome → rest.length < tokens.length))
      (fun _ => True)

section Progress

variable {α : Type} {ending : Ending} {tokens : List Token} {fuel limit : Nat}

theorem progresses_of_follows
    {reader : Nat → Reader α}
    {listed :
      Ending → (tokens : List Token) →
        Except Diagnostic (Parsed α tokens.length)}
    (follows : ∀ ending tokens fuel, fuelFor tokens ≤ fuel →
      Follows ending tokens (reader fuel) (listed ending tokens)) :
    Progresses reader listed := by
  intro ending tokens fuel enough
  refine Ends.mono (follows ending tokens fuel enough) ?_ fun _ reported => reported
  rintro value rest ⟨parsed, read, given, left⟩
  refine ⟨?_, parsed, read, given, left⟩
  rw [← left]
  exact parsed.rest_length_lt

/-- What a reader of token lists leaves is below its limit. -/
theorem Follows.below
    {reader : Reader α} {listed : Except Diagnostic (Parsed α limit)}
    (follows : Follows ending tokens reader listed) :
    Ends ending tokens reader (fun _ rest => rest.length < limit)
      (fun _ => True) := by
  refine Ends.mono follows ?_ fun _ _ => trivial
  rintro _ _ ⟨parsed, -, -, rfl⟩
  exact parsed.rest_length_lt

theorem ends_accept {kind : Kind} (inner : kind ≠ .eof) :
    Ends ending tokens (accept kind) (fun _ rest => rest.length < tokens.length + 1)
      (fun _ => True) := by
  have follows :
      Follows ending tokens (accept kind >>= pure)
        (Token.accept ending kind tokens >>= fun found =>
          found.elim (.ok (.stay false tokens)) fun token =>
            .ok (token.map fun _ => true).weaken) := by
    refine Follows.accept inner ?_ ?_
    · exact fun token => .give _ rfl rfl
    · exact .give _ rfl rfl
  rw [bind_pure] at follows
  exact follows.below

theorem ends_lift (computed : Except Diagnostic α) :
    Ends ending tokens (liftExcept computed) (fun _ rest => rest = tokens)
      (fun _ => True) := by
  cases computed with
  | error report => exact Ends.refuse trivial
  | ok value => exact Ends.give rfl

/-- A turn that starts with a look at the next token. -/
theorem ends_turn
    {reader : Reader α} {listed : Except Diagnostic (Parsed α tokens.length)}
    {starts : Kind → Prop} [DecidablePred starts]
    (follows : Follows ending tokens reader listed) :
    Ends ending tokens
      (do
        if starts (← peek) then
          let value ← reader
          return some value
        else
          return none)
      (fun outcome rest =>
        (outcome = none → rest = tokens) ∧
          (¬ outcome = none → rest.length < tokens.length))
      (fun _ => True) := by
  refine Ends.look ?_ fun _ _ => trivial
  intro token _ _
  by_cases started : starts token.kind
  · rw [if_pos started]
    refine Ends.bind follows.below ?_ fun _ _ => trivial
    intro value rest shorter
    refine Ends.give ⟨?_, fun _ => shorter⟩
    rintro ⟨⟩
  · rw [if_neg started]
    exact Ends.give ⟨fun _ => rfl, fun goesOn => absurd rfl goesOn⟩

/-! ## The turns of the loops -/

theorem turn_signs (run : List Unary) :
    TurnProgresses (fun _ => signTurn run) (· = none) := by
  intro ending tokens fuel _
  rw [signTurn]
  refine Ends.look ?_ fun _ _ => trivial
  intro token comes atEnd
  cases step : Unary.extend? run token.kind with
  | none =>
      exact Ends.give ⟨fun _ => rfl, fun goesOn => absurd rfl goesOn⟩
  | some longer =>
      have inner := ne_eof_of_extend? step
      cases tokens with
      | nil =>
          exact absurd (atEnd rfl) inner
      | cons first rest =>
          cases comes
          refine Ends.take inner (Ends.give ⟨?_, fun _ => Nat.lt_succ_self _⟩)
          rintro ⟨⟩

theorem turn_operators
    (functions : List Callee) (depth : Fin Level.table.length) (lhs : Expr) :
    TurnProgresses
      (operatorTurn functions · (Level.table.get depth) (depth + 1) lhs)
      (· = none) := by
  rintro ending tokens (_ | fuel) enough
  · cases enough
  beta_reduce
  rw [operatorTurn]
  refine Ends.look ?_ fun _ _ => trivial
  intro token comes atEnd
  cases step : (Level.table.get depth).operator? token.kind with
  | none =>
      exact Ends.give ⟨fun _ => rfl, fun goesOn => absurd rfl goesOn⟩
  | some operator =>
      have inner := ne_eof_of_operator? (List.get_mem _ _) step
      cases tokens with
      | nil =>
          exact absurd (atEnd rfl) inner
      | cons first rest =>
          cases comes
          refine Ends.take inner ?_
          have deep : 32 * rest.length + 13 < fuel := by
            rw [fuelFor, List.length_cons] at enough
            omega
          refine Ends.bind (follows_binary _ deep).below ?_ fun _ _ => trivial
          intro rhs left shorter
          refine Ends.give ⟨?_, fun _ => Nat.lt_succ_of_lt shorter⟩
          rintro ⟨⟩

theorem turn_statements (scope : Scope) (created : Nat) :
    TurnProgresses (statementTurn · scope created) (· = none) := by
  rintro ending tokens (_ | fuel) enough
  · cases enough
  beta_reduce
  rw [fuelFor] at enough
  rw [statementTurn]
  exact
    ends_turn
      ((stmts_follow ⟨⟨ending, scope.functions⟩, scope.function, scope.loop⟩
        created tokens).1 fuel (by omega))

theorem turn_definitions (functions : List Function) (created : Nat) :
    TurnProgresses (functionTurn functions · created) (· = none) := by
  intro ending tokens fuel enough
  rw [fuelFor] at enough
  exact ends_turn (follows_function (by omega))

theorem turn_arguments (functions : List Callee) :
    TurnProgresses (argumentTurn functions) (fun _ => False) := by
  rintro ending tokens (_ | fuel) enough
  · cases enough
  rw [fuelFor] at enough
  rw [argumentTurn]
  refine Ends.bind (follows_binary 0 (by omega)).below ?_ fun _ _ => trivial
  intro argument rest shorter
  refine Ends.bind (ends_accept (by decide)) ?_ fun _ _ => trivial
  intro more left shortest
  exact Ends.give ⟨False.elim, fun _ => by omega⟩

theorem turn_params (earlier : List String) :
    TurnProgresses (fun _ => paramTurn earlier) (fun _ => False) := by
  intro ending tokens fuel _
  rw [paramTurn]
  refine Ends.bind (Follows.expect (by decide)).below ?_ fun _ _ => trivial
  intro token rest shorter
  refine Ends.bind (ends_lift _) ?_ fun _ _ => trivial
  rintro param _ rfl
  refine Ends.bind (ends_accept (by decide)) ?_ fun _ _ => trivial
  intro more left shortest
  exact Ends.give ⟨False.elim, fun _ => by omega⟩

end Progress

/-- Every reader of an expression, a statement or a function makes progress. -/
structure ReadersProgress : Prop where
  binary : ∀ functions depth,
    Progresses (Demand.binary functions · depth) fun ending tokens =>
      Expr.parseLevels ⟨ending, functions⟩ (Level.table.drop depth) tokens
  expression : ∀ functions,
    Progresses (Demand.expression functions) fun ending tokens =>
      Expr.parse ⟨ending, functions⟩ tokens
  unary : ∀ functions,
    Progresses (Demand.unary functions) fun ending tokens =>
      Expr.parseLevels ⟨ending, functions⟩ [] tokens
  primary : ∀ functions,
    Progresses (Demand.primary functions) fun ending tokens =>
      Expr.parseOperand ⟨ending, functions⟩ tokens
  call : ∀ functions name,
    Progresses (Demand.call functions · name) fun ending tokens => do
      let callable ← Expr.Context.resolve ⟨ending, functions⟩ name
      let opening ← Token.expect ending .lparen tokens
      let call ← Expr.parseCall ⟨ending, functions⟩ callable opening.rest
      .ok (opening.andThen call)
  statement : ∀ (scope : Scope) created,
    Progresses (Demand.statement · scope created) fun ending tokens =>
      Stmt.parse ⟨⟨ending, scope.functions⟩, scope.function, scope.loop⟩
        created tokens
  function : ∀ functions created,
    Progresses (Demand.function functions · created) fun ending tokens => do
      let word ← Token.expect ending .kwDef tokens
      let definition ← Function.parse ending functions created word.rest
      .ok (word.andThen definition)

theorem readersProgress : ReadersProgress where
  binary functions depth := by
    refine progresses_of_follows fun ending tokens fuel enough => ?_
    rw [fuelFor] at enough
    exact follows_binary depth (by omega)
  expression functions := by
    refine progresses_of_follows fun ending tokens fuel enough => ?_
    rw [fuelFor] at enough
    exact follows_expression (by omega)
  unary functions := by
    refine progresses_of_follows fun ending tokens fuel enough => ?_
    rw [fuelFor] at enough
    exact follows_unary (by omega) (readers_follow _).2.1
  primary functions := by
    refine progresses_of_follows fun ending tokens fuel enough => ?_
    rw [fuelFor] at enough
    exact (readers_follow tokens).2.1 fuel (by omega)
  call functions name := by
    refine progresses_of_follows fun ending tokens fuel enough => ?_
    rw [fuelFor] at enough
    exact follows_call name (by omega)
  statement scope created := by
    refine progresses_of_follows fun ending tokens fuel enough => ?_
    rw [fuelFor] at enough
    exact
      (stmts_follow ⟨⟨ending, scope.functions⟩, scope.function, scope.loop⟩
        created tokens).1 fuel (by omega)
  function functions created := by
    refine progresses_of_follows fun ending tokens fuel enough => ?_
    rw [fuelFor] at enough
    exact follows_function (by omega)

/-- Every turn of a loop makes progress.  A turn that reads an argument or a parameter
always takes a token. -/
structure TurnsProgress : Prop where
  definitions : ∀ functions created,
    TurnProgresses (functionTurn functions · created) (· = none)
  statements : ∀ scope created,
    TurnProgresses (statementTurn · scope created) (· = none)
  params : ∀ earlier,
    TurnProgresses (fun _ => paramTurn earlier) (fun _ => False)
  arguments : ∀ functions,
    TurnProgresses (argumentTurn functions) (fun _ => False)
  operators : ∀ functions (depth : Fin Level.table.length) lhs,
    TurnProgresses
      (operatorTurn functions · (Level.table.get depth) (depth + 1) lhs) (· = none)
  signs : ∀ run, TurnProgresses (fun _ => signTurn run) (· = none)

theorem turnsProgress : TurnsProgress where
  definitions := turn_definitions
  statements := turn_statements
  params := turn_params
  arguments := turn_arguments
  operators := turn_operators
  signs := turn_signs

/-! ## Whole texts -/

theorem offers_ofString (text : String) :
    (Session.ofString text).Offers (Stream.ofString text).tokens
      (Stream.ofString text).ending := by
  obtain ⟨later, same, comes, -⟩ := Token.Queue.exists_ofString_eq_stream text
  refine ⟨fun last ended => Stream.kind_of_ending_ofLines ended, later, comes, ?_⟩
  rw [← same]
  exact Token.Source.ofString_shows text

/-- The end of the input is met once at most. -/
theorem count_eof_le_one
    {ending : Ending} {tokens taken : List Token}
    (inner : ∀ token ∈ tokens, token.kind ≠ .eof)
    (reached : taken <+: tokens ++ lastOf ending) :
    taken.countP (·.kind == .eof) ≤ 1 := by
  have noEnd : tokens.countP (·.kind == .eof) = 0 := by
    rw [List.countP_eq_zero]
    intro token member isEnd
    exact inner token member (beq_iff_eq.mp isEnd)
  have oneLast : (lastOf ending).length ≤ 1 := by
    cases ending with
    | error report => exact Nat.zero_le 1
    | ok last => exact Nat.le_refl 1
  calc
    taken.countP (·.kind == .eof) ≤
        (tokens ++ lastOf ending).countP (·.kind == .eof) :=
      reached.sublist.countP_le
    _ = (lastOf ending).countP (·.kind == .eof) := by
      rw [List.countP_append, noEnd, Nat.zero_add]
    _ ≤ (lastOf ending).length := List.countP_le_length
    _ ≤ 1 := oneLast

/-- Whatever a session offers, every reader and every turn of a loop makes progress.  So
reading ends on every text: each token is taken at most once and in order, and the end
of the input at most once.  On a program that is accepted, all of them are taken. -/
theorem reading_progresses_and_ends :
    (∀ session : Session, ∃ tokens ending, session.Offers tokens ending) ∧
      ReadersProgress ∧ TurnsProgress ∧
      ∀ (text : String) (fuel : Nat),
        fuelFor (Stream.ofString text).tokens ≤ fuel →
          ∃ after : Session,
            program fuel (.ofString text) = some (Program.parse text, after) ∧
              after.taken <+:
                (Stream.ofString text).tokens ++
                  lastOf (Stream.ofString text).ending ∧
              after.taken.countP (·.kind == .eof) ≤ 1 ∧
              ∀ whole, Program.parse text = .ok whole →
                after.taken =
                  (Stream.ofString text).tokens ++
                    lastOf (Stream.ofString text).ending := by
  refine
    ⟨Session.exists_offers, readersProgress, turnsProgress,
      fun text fuel enough => ?_⟩
  have deep : 32 * (Stream.ofString text).tokens.length + 2 < fuel := by
    rw [fuelFor] at enough
    omega
  have inner : ∀ token ∈ (Stream.ofString text).tokens, token.kind ≠ .eof :=
    fun token member => Token.kind_ne_eof_of_mem member
  obtain ⟨after, answered, ⟨taken, logged, reached⟩, whole⟩ :=
    run_program (offers_ofString text) inner deep
  have fromStart : after.taken = taken := logged
  subst fromStart
  exact ⟨after, answered, reached, count_eof_le_one inner reached, whole⟩

/-- A loop with a sign and a call in it, of which every token is taken. -/
theorem reading_progresses_and_ends_of_loop :
    fuelFor (Stream.ofString "while (y) x = -max(a, 2);").tokens = 480 ∧
      ∃ (whole : Program) (after : Session),
        program 480 (.ofString "while (y) x = -max(a, 2);") = some (.ok whole, after) ∧
          after.taken.map Token.kind =
            [.kwWhile, .lparen, .identifier, .rparen, .identifier, .assign, .minus,
              .identifier, .lparen, .identifier, .comma, .number, .rparen,
              .semicolon, .eof] := by
  have fuel : fuelFor (Stream.ofString "while (y) x = -max(a, 2);").tokens = 480 := by
    decide +kernel
  obtain ⟨whole, read, -⟩ :=
    exists_ok_of_any
      (show
          ((Program.parse "while (y) x = -max(a, 2);").toOption.any fun _ => true) =
            true by
        decide +kernel)
  obtain ⟨after, answered, -, -, all⟩ :=
    reading_progresses_and_ends.2.2.2 "while (y) x = -max(a, 2);" 480
      (Nat.le_of_eq fuel)
  refine ⟨fuel, whole, after, ?_, ?_⟩
  · rw [answered, read]
  · rw [all whole read]
    decide +kernel

end FlatCode.Demand
