import FlatCode.Proofs.Demand.Expr
import FlatCode.Stmt.Parser

/-!
# Statements read on demand

A statement is chosen by the kind of its first token, which is looked at and taken
by the reader that is chosen.  An empty statement has no such reader: its semicolon
is taken where a semicolon behind other statements is.

Each reader ends and gives what its partner on token lists gives.
-/

namespace FlatCode.Demand

open Token (Ending Kind Parsed)

/-! ## The readers -/

/-- Where a statement stands: the functions it may call, the function around it and
the innermost loop around it. -/
structure Scope where
  functions : List Callee
  function : Option String
  loop : Option Stmt.LoopLabels

def Scope.forget (scope : Stmt.Scope) : Scope :=
  ⟨scope.expressions.functions, scope.function, scope.loop⟩

def value (scope : Scope) (fuel : Nat) : Reader Expr := do
  let expr ← expression scope.functions fuel
  return expr.normalize

def condition (scope : Scope) (fuel : Nat) : Reader Expr := do
  let _ ← expect .lparen
  let expr ← expression scope.functions fuel
  let _ ← expect .rparen
  return expr

def assigned (scope : Scope) (fuel : Nat) : Reader Expr := do
  let _ ← expect .assign
  value scope fuel

def assignment (scope : Scope) (fuel : Nat) : Reader Stmt := do
  let target ← expect .identifier
  if ← accept .lbracket then
    let index ← value scope fuel
    let _ ← expect .rbracket
    let expr ← assigned scope fuel
    return .store target.payload index expr
  else
    let expr ← assigned scope fuel
    return .assign target.payload expr

def enclosingFunction (scope : Scope) (word : Token) :
    Except Diagnostic String :=
  match scope.function with
  | none => .error (Fault.unexpectedReturn.reportAt word.position)
  | some function => .ok function

def returning (scope : Scope) (fuel : Nat) : Reader Stmt := do
  let word ← expect .kwReturn
  let function ← liftExcept (enclosingFunction scope word)
  if Stmt.startsResult (← peek) then
    let result ← value scope fuel
    return .ret function (some result)
  else
    return .ret function none

def enclosingLoop (scope : Scope) (word : Token) :
    Except Diagnostic Stmt.LoopLabels :=
  match scope.loop with
  | none => .error (Fault.unexpectedLoopControl.reportAt word.position)
  | some labels => .ok labels

def jump (scope : Scope) : Reader Stmt := do
  let word ← read
  let labels ← liftExcept (enclosingLoop scope word)
  return .jump (if word.kind = .kwBreak then labels.exit else labels.home)

/-- Take a semicolon behind a statement if it comes next. -/
def terminated (reader : Reader Stmt) : Reader Stmt := do
  let stmt ← reader
  let _ ← accept .semicolon
  return stmt

mutual

/-- Read one statement, with `created` labels in use already. -/
def statement : Nat → Scope → Nat → Reader (Stmt.Numbered Stmt)
  | 0, _, _ => exhausted
  | fuel + 1, scope, created => do
      match ← peek with
      | .identifier =>
          let stmt ← terminated (assignment scope fuel)
          return (stmt, created)
      | .kwIf =>
          let _ ← expect .kwIf
          let test ← condition scope fuel
          let first ← statement fuel scope created
          if ← accept .kwElse then
            let second ← statement fuel scope first.2
            return (.ifElse test first.1 second.1, second.2)
          else
            return (.ifThen test first.1, first.2)
      | .kwWhile =>
          let labels : Stmt.LoopLabels := ⟨⟨created⟩, ⟨created + 1⟩⟩
          let _ ← expect .kwWhile
          let test ← condition scope fuel
          let body ←
            statement fuel { scope with loop := some labels } (created + 2)
          return (.loop labels.home labels.exit test body.1, body.2)
      | .kwReturn =>
          let stmt ← terminated (returning scope fuel)
          return (stmt, created)
      | .kwBreak | .kwContinue =>
          let stmt ← terminated (jump scope)
          return (stmt, created)
      | .raw =>
          let token ← expect .raw
          return (.raw token.payload, created)
      | .lbrace =>
          let _ ← expect .lbrace
          let body ← statements fuel scope created
          let _ ← expect .rbrace
          return (.block body.1, body.2)
      | .semicolon =>
          let stmt ← terminated (pure .empty)
          return (stmt, created)
      | _ =>
          let token ← read
          throw (Fault.expectedStatement.reportAt token.position)

/-- Read one more statement, if the next token starts one. -/
def statementTurn :
    Nat → Scope → Nat → Reader (Option (Stmt.Numbered Stmt))
  | 0, _, _ => exhausted
  | fuel + 1, scope, created => do
      if Stmt.startsStatement (← peek) then
        let stmt ← statement fuel scope created
        return some stmt
      else
        return none

def statements : Nat → Scope → Nat → Reader (Stmt.Numbered (List Stmt))
  | 0, _, _ => exhausted
  | fuel + 1, scope, created => do
      match ← statementTurn fuel scope created with
      | none => return ([], created)
      | some first =>
          let others ← statements fuel scope first.2
          return (first.1 :: others.1, others.2)

end

section Following

attribute [local simp] statement statementTurn statements

variable {scope : Stmt.Scope} {created fuel : Nat} {token : Token}
  {tokens rest : List Token}

/-! ## Parts of statements -/

theorem follows_value (enough : 32 * tokens.length + 13 < fuel) :
    Follows scope.ending tokens (value (.forget scope) fuel)
      (Stmt.parseValue scope tokens) := by
  rw [value, Stmt.parseValue]
  exact (follows_expression enough).bind fun expr => .give _ rfl rfl

theorem follows_condition (enough : 32 * tokens.length + 13 < fuel) :
    Follows scope.ending tokens (condition (.forget scope) fuel)
      (Stmt.parseCondition scope tokens) := by
  rw [condition, Stmt.parseCondition]
  refine (Follows.expect (by decide)).bind fun opening => ?_
  have shorter := opening.rest_length_lt
  refine (follows_expression (by omega)).bind fun expr => ?_
  exact (Follows.expect (by decide)).bind fun close => .give _ rfl rfl

theorem follows_assigned (enough : 32 * tokens.length + 13 < fuel) :
    Follows scope.ending tokens (assigned (.forget scope) fuel)
      (Stmt.parseAssigned scope tokens) := by
  rw [assigned, Stmt.parseAssigned]
  refine (Follows.expect (by decide)).bind fun sign => ?_
  have shorter := sign.rest_length_lt
  exact (follows_value (by omega)).same (fun _ => rfl) fun _ => rfl

theorem follows_assignment
    (identifier : token.kind = .identifier)
    (enough : 32 * rest.length + 13 < fuel) :
    Follows scope.ending (token :: rest) (assignment (.forget scope) fuel)
      (Stmt.parseAssignment scope token.payload rest) := by
  rw [assignment, Stmt.parseAssignment]
  refine Ends.take_expected rfl identifier (by decide) ?_
  refine Follows.accept (by decide) ?_ ?_
  · intro opening
    have opened := opening.rest_length_lt
    refine (follows_value (by omega)).bind fun index => ?_
    have indexed := index.rest_length_lt
    refine (Follows.expect (by decide)).bind fun close => ?_
    have closed := close.rest_length_lt
    exact (follows_assigned (by omega)).bind fun expr => .give _ rfl rfl
  · exact (follows_assigned enough).bind fun expr => .give _ rfl rfl

theorem follows_returning
    (word : token.kind = .kwReturn) (enough : 32 * rest.length + 13 < fuel) :
    Follows scope.ending (token :: rest) (returning (.forget scope) fuel)
      (Stmt.parseReturn scope token rest) := by
  rw [returning, Stmt.parseReturn]
  refine Ends.take_expected rfl word (by decide) ?_
  simp only [enclosingFunction, Scope.forget]
  cases scope.function with
  | none =>
      exact Ends.refuse rfl
  | some function =>
      refine Follows.look fun next _ => ?_
      by_cases valued : Stmt.startsResult next.kind = true
      · rw [if_pos valued, if_pos valued]
        exact (follows_value enough).bind fun result => .give _ rfl rfl
      · rw [if_neg valued, if_neg valued]
        exact .give _ rfl rfl

theorem follows_skipSemicolon
    {α : Type} {limit : Nat} (parsed : Parsed α limit) :
    Follows scope.ending parsed.rest
      (do
        let _ ← accept .semicolon
        return parsed.value)
      (Stmt.skipSemicolon scope parsed) := by
  rw [Stmt.skipSemicolon]
  refine Follows.accept (by decide) ?_ ?_
  · exact fun semicolon => .give _ rfl rfl
  · exact .give _ rfl rfl

/-- A semicolon may stand behind the statement that was read. -/
theorem follows_terminated
    {limit other : Nat} {reader : Reader Stmt}
    {listed : Except Diagnostic (Parsed Stmt limit)}
    {change : Parsed Stmt limit → Parsed (Stmt.Numbered Stmt) other}
    (follows : Follows scope.ending tokens reader listed)
    (value : ∀ ended, (change ended).value = (ended.value, created))
    (left : ∀ ended, (change ended).rest = ended.rest) :
    Follows scope.ending tokens
      (do
        let stmt ← terminated reader
        return (stmt, created))
      (do
        let stmt ← listed
        let ended ← Stmt.skipSemicolon scope stmt
        .ok (change ended)) := by
  rw [terminated, bind_assoc]
  refine follows.bind fun stmt => ?_
  refine (follows_skipSemicolon stmt).bind fun ended => ?_
  exact .give _ (value ended) (left ended)

/-- A `break` or `continue` at the front. -/
theorem follows_jump
    {target : Stmt.LoopLabels → Label} (inner : token.kind ≠ .eof)
    (acts : ∀ labels : Stmt.LoopLabels,
      target labels =
        if token.kind = .kwBreak then labels.exit else labels.home) :
    Follows scope.ending (token :: rest)
      (do
        let stmt ← terminated (jump (.forget scope))
        return (stmt, created))
      (do
        let labels ← Stmt.enclosingLoop scope token
        Stmt.skipSemicolon scope
          (.stay (.jump (target labels), created) rest)) := by
  rw [terminated, jump]
  simp only [bind_assoc, pure_bind]
  refine Ends.take inner ?_
  refine Follows.lift fun labels => ?_
  rw [← acts]
  exact follows_skipSemicolon (.stay (Stmt.jump (target labels), created) rest)

/-! ## One statement for each reader -/

/-- A statement is read as from the token list. -/
def StmtFollows
    (scope : Stmt.Scope) (created : Nat) (tokens : List Token) : Prop :=
  ∀ fuel, 32 * tokens.length < fuel →
    Follows scope.ending tokens (statement fuel (.forget scope) created)
      (Stmt.parse scope created tokens)

def StmtsFollow
    (scope : Stmt.Scope) (created : Nat) (tokens : List Token) : Prop :=
  ∀ fuel, 32 * tokens.length + 2 < fuel →
    Follows scope.ending tokens (statements fuel (.forget scope) created)
      (Stmt.parseMany scope created tokens)

/-! ## One step of each reader -/

theorem stmtFollows_nil : StmtFollows scope created [] := by
  rintro (_ | fuel) enough
  · cases enough
  rw [statement, Stmt.parse]
  refine Ends.look ?_ ?_
  · rintro last found atEnd
    rw [atEnd rfl]
    refine Ends.take_last ?_ ?_
    · intro last' same _
      rw [same]
      exact ⟨_, rfl, rfl⟩
    · intro report passed
      rw [passed]
      rfl
  · intro report passed
    rw [show scope.ending = _ from passed]
    rfl

theorem stmtFollows_assignment (identifier : token.kind = .identifier) :
    StmtFollows scope created (token :: rest) := by
  rintro (_ | fuel) enough
  · cases enough
  rw [List.length_cons] at enough
  rw [statement, Stmt.parse]
  refine Ends.look_front ?_
  simp only [identifier]
  refine follows_terminated (follows_assignment identifier (by omega)) ?_ ?_
  · exact fun _ => rfl
  · exact fun _ => rfl

theorem stmtFollows_if
    (word : token.kind = .kwIf)
    (thenFollows : ∀ condition : Parsed Expr rest.length,
      StmtFollows scope created condition.rest)
    (elseFollows :
      ∀ (condition : Parsed Expr rest.length)
        (thenBranch : Parsed (Stmt.Numbered Stmt) condition.rest.length)
        (between : Parsed Token thenBranch.rest.length),
        StmtFollows scope thenBranch.value.2 between.rest) :
    StmtFollows scope created (token :: rest) := by
  rintro (_ | fuel) enough
  · cases enough
  rw [List.length_cons] at enough
  rw [statement, Stmt.parse]
  refine Ends.look_front ?_
  simp only [word]
  refine Ends.take_expected rfl word (by decide) ?_
  refine (follows_condition (by omega)).bind fun test => ?_
  have tested := test.rest_length_lt
  refine (thenFollows test fuel (by omega)).bind fun first => ?_
  have firstRead := first.rest_length_lt
  refine Follows.accept (by decide) ?_ ?_
  · intro between
    have passed := between.rest_length_lt
    refine (elseFollows test first between fuel (by omega)).bind fun second => ?_
    exact .give _ rfl rfl
  · exact .give _ rfl rfl

theorem stmtFollows_while
    (word : token.kind = .kwWhile)
    (bodyFollows : ∀ condition : Parsed Expr rest.length,
      StmtFollows { scope with loop := some ⟨⟨created⟩, ⟨created + 1⟩⟩ }
        (created + 2) condition.rest) :
    StmtFollows scope created (token :: rest) := by
  rintro (_ | fuel) enough
  · cases enough
  rw [List.length_cons] at enough
  rw [statement, Stmt.parse]
  refine Ends.look_front ?_
  simp only [word]
  refine Ends.take_expected rfl word (by decide) ?_
  refine (follows_condition (by omega)).bind fun test => ?_
  have tested := test.rest_length_lt
  exact (bodyFollows test fuel (by omega)).bind fun body => .give _ rfl rfl

theorem stmtFollows_return (word : token.kind = .kwReturn) :
    StmtFollows scope created (token :: rest) := by
  rintro (_ | fuel) enough
  · cases enough
  rw [List.length_cons] at enough
  rw [statement, Stmt.parse]
  refine Ends.look_front ?_
  simp only [word]
  refine follows_terminated (follows_returning word (by omega)) ?_ ?_
  · exact fun _ => rfl
  · exact fun _ => rfl

theorem stmtFollows_break (word : token.kind = .kwBreak) :
    StmtFollows scope created (token :: rest) := by
  rintro (_ | fuel) enough
  · cases enough
  rw [statement, Stmt.parse]
  refine Ends.look_front ?_
  simp only [word]
  refine follows_jump (by rw [word]; decide) ?_
  exact fun labels => (if_pos word).symm

theorem stmtFollows_continue (word : token.kind = .kwContinue) :
    StmtFollows scope created (token :: rest) := by
  rintro (_ | fuel) enough
  · cases enough
  rw [statement, Stmt.parse]
  refine Ends.look_front ?_
  simp only [word]
  refine follows_jump (by rw [word]; decide) ?_
  exact fun labels => (if_neg (by rw [word]; decide)).symm

theorem stmtFollows_raw (word : token.kind = .raw) :
    StmtFollows scope created (token :: rest) := by
  rintro (_ | fuel) enough
  · cases enough
  rw [statement, Stmt.parse]
  refine Ends.look_front ?_
  simp only [word]
  refine Ends.take_expected rfl word (by decide) ?_
  exact Follows.give (.stay (Stmt.raw token.payload, created) rest) rfl rfl

theorem stmtFollows_block
    (word : token.kind = .lbrace)
    (bodyFollows : StmtsFollow scope created rest) :
    StmtFollows scope created (token :: rest) := by
  rintro (_ | fuel) enough
  · cases enough
  rw [List.length_cons] at enough
  rw [statement, Stmt.parse]
  refine Ends.look_front ?_
  simp only [word]
  refine Ends.take_expected rfl word (by decide) ?_
  refine (bodyFollows fuel (by omega)).bind fun body => ?_
  exact (Follows.expect (by decide)).bind fun close => .give _ rfl rfl

theorem stmtFollows_empty (word : token.kind = .semicolon) :
    StmtFollows scope created (token :: rest) := by
  rintro (_ | fuel) enough
  · cases enough
  rw [statement, Stmt.parse]
  refine Ends.look_front ?_
  simp only [word, terminated, bind_assoc, pure_bind]
  -- The only token of the statement is taken as the semicolon behind it.
  refine Ends.take_accepted word (by decide) ?_
  exact Follows.give (.stay (Stmt.empty, created) rest) rfl rfl

theorem stmtFollows_other (foreign : Stmt.startsStatement token.kind = false) :
    StmtFollows scope created (token :: rest) := by
  rintro (_ | fuel) enough
  · cases enough
  rw [statement, Stmt.parse]
  refine Ends.look_front ?_
  cases kind : token.kind with
  | identifier | kwIf | kwWhile | kwReturn | kwBreak | kwContinue | raw | lbrace
  | semicolon =>
      rw [kind] at foreign
      cases foreign
  | _ =>
      exact Ends.take_refused rfl rfl

theorem stmtsFollow_step
    (firstFollows : StmtFollows scope created tokens)
    (othersFollow : ∀ stmt : Parsed (Stmt.Numbered Stmt) tokens.length,
      StmtsFollow scope stmt.value.2 stmt.rest) :
    StmtsFollow scope created tokens := by
  rintro (_ | _ | fuel) enough
  · cases enough
  · omega
  rw [statements, statementTurn, bind_assoc, Stmt.parseMany]
  refine Follows.look fun next _ => ?_
  by_cases starts : Stmt.startsStatement next.kind = true
  · rw [if_pos starts, if_pos starts, bind_assoc]
    refine (firstFollows fuel (by omega)).bind fun first => ?_
    have shorter := first.rest_length_lt
    rw [pure_bind]
    refine (othersFollow first (fuel + 1) (by omega)).bind fun others => ?_
    exact .give _ rfl rfl
  · rw [if_neg starts, if_neg starts, pure_bind]
    exact .give _ rfl rfl

/-! ## All readers of statements -/

theorem stmts_follow (scope : Stmt.Scope) (created : Nat) (tokens : List Token) :
    StmtFollows scope created tokens ∧ StmtsFollow scope created tokens := by
  have readers :=
    Stmt.parse.mutual_induct StmtFollows StmtsFollow
      (fun _ _ => stmtFollows_nil)
      (fun _ _ _ _ => stmtFollows_assignment)
      (fun _ _ _ _ => stmtFollows_if)
      (fun _ _ _ _ => stmtFollows_while)
      (fun _ _ _ _ => stmtFollows_return)
      (fun _ _ _ _ => stmtFollows_break)
      (fun _ _ _ _ => stmtFollows_continue)
      (fun _ _ _ _ => stmtFollows_raw)
      (fun _ _ _ _ => stmtFollows_block)
      (fun _ _ _ _ => stmtFollows_empty)
      (by
        -- Each kind that starts a statement has a case above.
        intro scope created token rest
        intros
        apply stmtFollows_other
        cases kind : token.kind <;> first | rfl | contradiction)
      (fun _ _ _ => stmtsFollow_step)
  exact ⟨readers.1 scope created tokens, readers.2 scope created tokens⟩

end Following

end FlatCode.Demand
