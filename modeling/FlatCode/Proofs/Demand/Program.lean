import FlatCode.Program.Parser
import FlatCode.Proofs.Demand.Stmt

/-!
# Programs read on demand

Function definitions are read as long as the word `def` comes next, then the main
statements, and then the end of the input, which is taken here and nowhere else.

Up to the end of the input each reader ends and gives what its partner on token lists
gives.
-/

namespace FlatCode.Demand

open Token (Ending Kind Parsed)

/-! ## The readers -/

/-- Read one parameter behind those read before, and tell whether a comma was taken
behind it. -/
def paramTurn (earlier : List String) : Reader (String × Bool) := do
  let token ← expect .identifier
  let param ← liftExcept (Function.checkParam earlier token)
  let more ← accept .comma
  return (param, more)

def params : Nat → List String → Reader (List String)
  | 0, _ => exhausted
  | fuel + 1, earlier => do
      let turn ← paramTurn earlier
      if turn.2 then
        params fuel (earlier ++ [turn.1])
      else
        return earlier ++ [turn.1]

def paramList (fuel : Nat) : Reader (List String) := do
  if (← peek) = .rparen then
    return []
  else
    params fuel []

def signature (fuel : Nat) : Reader (List String) := do
  let _ ← expect .lparen
  let params ← paramList fuel
  let _ ← expect .rparen
  return params

def functionBehind (functions : List Function) (fuel created : Nat) :
    Reader (Stmt.Numbered Function) := do
  let word ← expect .identifier
  let name ← liftExcept (Function.checkName functions word)
  let params ← signature fuel
  let _ ← expect .lbrace
  let body ← statements fuel ⟨functions.map Function.callee, some name, none⟩ created
  let _ ← expect .rbrace
  return (⟨name, params, ⟨body.2⟩, Function.closeBody name body.1⟩, body.2 + 1)

def function (functions : List Function) (fuel created : Nat) :
    Reader (Stmt.Numbered Function) := do
  let _ ← expect .kwDef
  functionBehind functions fuel created

def functionTurn (functions : List Function) (fuel created : Nat) :
    Reader (Option (Stmt.Numbered Function)) := do
  if (← peek) = .kwDef then
    let definition ← function functions fuel created
    return some definition
  else
    return none

def definitions :
    Nat → List Function → Nat → Reader (Stmt.Numbered (List Function))
  | 0, _, _ => exhausted
  | fuel + 1, functions, created => do
      match ← functionTurn functions fuel created with
      | none => return (functions, created)
      | some definition =>
          definitions fuel (functions ++ [definition.1]) definition.2

def parts (fuel : Nat) : Reader (List Function × Stmt.Numbered (List Stmt)) := do
  let functions ← definitions fuel [] 0
  let main ←
    statements fuel ⟨functions.1.map Function.callee, none, none⟩ functions.2
  return (functions.1, main)

def program (fuel : Nat) : Reader Program := do
  let parts ← parts fuel
  let _ ← expect .eof
  return ⟨parts.1, parts.2.1, LabelTable.empty.createMany parts.2.2⟩

/-! ## What the readers follow -/

section Following

attribute [local simp] params definitions

variable {ending : Ending} {functions : List Function} {created fuel : Nat}
  {tokens : List Token}

theorem follows_params
    (tokens : List Token) {fuel : Nat} (earlier : List String)
    (enough : tokens.length < fuel) :
    Follows ending tokens (params fuel earlier)
      (Function.parseParams ending earlier tokens) := by
  induction fuel generalizing tokens earlier with
  | zero =>
      cases enough
  | succ fuel inductionHypothesis =>
      rw [params, paramTurn, Function.parseParams]
      simp only [bind_assoc, pure_bind]
      refine (Follows.expect (by decide)).bind fun token => ?_
      have shorter := token.rest_length_lt
      refine Follows.lift fun param => ?_
      refine Follows.accept (by decide) ?_ ?_
      · intro comma
        have shortest := comma.rest_length_lt
        exact
          (inductionHypothesis comma.rest _ (by omega)).same (fun _ => rfl) fun _ => rfl
      · exact .give _ rfl rfl

theorem follows_signature (enough : tokens.length < fuel) :
    Follows ending tokens (signature fuel)
      (Function.parseSignature ending tokens) := by
  rw [signature, Function.parseSignature]
  refine (Follows.expect (by decide)).bind fun opening => ?_
  have shorter := opening.rest_length_lt
  rw [paramList, bind_assoc]
  refine Follows.glance (by decide) ?_ ?_
  · intro close front closes
    rw [if_pos rfl, pure_bind]
    refine Ends.take_expected front closes (by decide) ?_
    exact Follows.give (opening.andThen (close.map fun _ => [])) rfl rfl
  · intro next opens
    rw [if_neg opens]
    refine (follows_params opening.rest [] (by omega)).bind fun params => ?_
    exact (Follows.expect (by decide)).bind fun close => .give _ rfl rfl

theorem follows_functionBehind (enough : 32 * tokens.length + 2 < fuel) :
    Follows ending tokens (functionBehind functions fuel created)
      (Function.parse ending functions created tokens) := by
  rw [functionBehind, Function.parse]
  refine (Follows.expect (by decide)).bind fun word => ?_
  have named := word.rest_length_lt
  refine Follows.lift fun name => ?_
  refine (follows_signature (by omega)).bind fun params => ?_
  have signed := params.rest_length_lt
  refine (Follows.expect (by decide)).bind fun opening => ?_
  have opened := opening.rest_length_lt
  have body :=
    (stmts_follow ⟨⟨ending, functions.map Function.callee⟩, some name, none⟩
      created opening.rest).2 fuel (by omega)
  refine body.bind fun body => ?_
  exact (Follows.expect (by decide)).bind fun close => .give _ rfl rfl

theorem follows_function (enough : 32 * tokens.length < fuel) :
    Follows ending tokens (function functions fuel created)
      (do
        let word ← Token.expect ending .kwDef tokens
        let definition ← Function.parse ending functions created word.rest
        .ok (word.andThen definition)) := by
  rw [function]
  refine (Follows.expect (by decide)).bind fun word => ?_
  have shorter := word.rest_length_lt
  exact (follows_functionBehind (by omega)).same (fun _ => rfl) fun _ => rfl

theorem follows_definitions
    (tokens : List Token) (functions : List Function) (created : Nat)
    {fuel : Nat} (enough : 32 * tokens.length < fuel) :
    Follows ending tokens (definitions fuel functions created)
      (Program.parseFunctions ending functions created tokens) := by
  induction fuel generalizing tokens functions created with
  | zero =>
      cases enough
  | succ fuel inductionHypothesis =>
      rw [definitions, functionTurn, bind_assoc, Program.parseFunctions]
      refine Follows.glance (by decide) ?_ ?_
      · intro word front starts
        have shorter := word.rest_length_lt
        rw [if_pos rfl, function]
        simp only [bind_assoc, pure_bind]
        refine Ends.take_expected front starts (by decide) ?_
        refine (follows_functionBehind (by omega)).bind fun definition => ?_
        have shortest := definition.rest_length_lt
        exact
          (inductionHypothesis definition.rest _ _ (by omega)).same
            (fun _ => rfl) fun _ => rfl
      · intro next ends
        rw [if_neg ends, pure_bind]
        exact .give _ rfl rfl

/-- The functions and the main statements of a program, read from a token list. -/
def listedParts (ending : Ending) (tokens : List Token) :
    Except Diagnostic
      (Parsed (List Function × Stmt.Numbered (List Stmt)) (tokens.length + 1)) := do
  let functions ← Program.parseFunctions ending [] 0 tokens
  let main ←
    Stmt.parseMany ⟨⟨ending, functions.value.1.map Function.callee⟩, none, none⟩
      functions.value.2 functions.rest
  .ok (functions.andMaybe (main.map (functions.value.1, ·)))

theorem ofStream_eq (ending : Ending) (tokens : List Token) :
    Program.ofStream ⟨tokens, ending⟩ =
      (do
        let parts ← listedParts ending tokens
        Token.expectEnd ending parts.rest
        .ok
          ⟨parts.value.1, parts.value.2.1,
            LabelTable.empty.createMany parts.value.2.2⟩) := by
  simp only [Program.ofStream, listedParts, bind_assoc]
  rfl

theorem follows_parts (enough : 32 * tokens.length + 2 < fuel) :
    Follows ending tokens (parts fuel) (listedParts ending tokens) := by
  rw [parts, listedParts]
  refine (follows_definitions tokens [] 0 (by omega)).bind fun functions => ?_
  have shorter := functions.rest_length_lt
  have main :=
    (stmts_follow ⟨⟨ending, functions.value.1.map Function.callee⟩, none, none⟩
      functions.value.2 functions.rest).2 fuel (by omega)
  exact main.bind fun main => .give _ rfl rfl

/-! ## The end of the input -/

variable {session : Session}

/-- Taking the end of the input. -/
theorem run_expect_eof
    (offers : session.Offers tokens ending)
    (inner : ∀ token ∈ tokens, token.kind ≠ .eof) :
    ∃ answer after,
      expect .eof session = some (answer, after) ∧
        answer.map (fun _ => ()) = Token.expectEnd ending tokens ∧
        Stopped ending session after tokens ∧
        ∀ last, answer = .ok last →
          after.taken = session.taken ++ (tokens ++ lastOf ending) := by
  cases tokens with
  | nil =>
      obtain ⟨after, answered, taken⟩ := offers.read_nil
      have stopped : Stopped ending session after [] :=
        ⟨lastOf ending, taken, List.prefix_refl _⟩
      rw [expect, run_bind, answered]
      cases ending with
      | error report =>
          exact ⟨.error report, after, rfl, rfl, stopped, by rintro _ ⟨⟩⟩
      | ok last =>
          have isEnd : last.kind = .eof := offers.isEnd last rfl
          refine ⟨.ok last, after, ?_, rfl, stopped, fun _ _ => taken⟩
          simp only [Option.bind_some, if_pos isEnd]
          rfl
  | cons token rest =>
      obtain ⟨after, answered, taken, -⟩ := offers.read_cons
      have unfit : token.kind ≠ .eof := inner token List.mem_cons_self
      rw [expect, run_bind, answered]
      refine
        ⟨.error ((Fault.expected .eof).reportAt token.position), after, ?_, rfl,
          ⟨[token], taken, by simp⟩, by rintro _ ⟨⟩⟩
      simp only [Option.bind_some, if_neg unfit]
      rfl

/-- Reading a program ends, and it gives what is read from the token list. -/
theorem run_program
    (offers : session.Offers tokens ending)
    (inner : ∀ token ∈ tokens, token.kind ≠ .eof)
    (enough : 32 * tokens.length + 2 < fuel) :
    ∃ after,
      program fuel session = some (Program.ofStream ⟨tokens, ending⟩, after) ∧
        Stopped ending session after tokens ∧
        ∀ whole, Program.ofStream ⟨tokens, ending⟩ = .ok whole →
          after.taken = session.taken ++ (tokens ++ lastOf ending) := by
  have ended := follows_parts enough session offers
  rw [program, run_bind, ofStream_eq]
  generalize parts fuel session = result at ended
  cases ended with
  | report stopped reported =>
      rw [reported]
      exact ⟨_, rfl, stopped, by rintro _ ⟨⟩⟩
  | @value _ _ between advanced given =>
      obtain ⟨parsed, listed, rfl, rfl⟩ := given
      obtain ⟨early, split, -, earlyTaken⟩ := advanced.taken
      have later : ∀ token ∈ parsed.rest, token.kind ≠ .eof := fun token member =>
        inner token (split ▸ List.mem_append_right early member)
      obtain ⟨answer, after, answered, agrees, stopped, whole⟩ :=
        run_expect_eof advanced.offers later
      refine ⟨after, ?_, advanced.stop stopped, ?_⟩
      · rw [listed]
        show (expect .eof >>= _) between = _
        rw [run_bind, answered]
        show _ = some (Token.expectEnd ending parsed.rest >>= _, after)
        rw [← agrees]
        cases answer with
        | error report => rfl
        | ok last => rfl
      · intro built read
        rw [listed] at read
        change (Token.expectEnd ending parsed.rest >>= _) = _ at read
        rw [← agrees] at read
        cases answer with
        | error report =>
            cases read
        | ok last =>
            rw [whole last rfl, earlyTaken, List.append_assoc,
              ← List.append_assoc early, ← split]

end Following

end FlatCode.Demand
