import FlatCode.Proofs.Grammar.SoundExpr
import FlatCode.Proofs.Reading.Program

/-!
# Every program that is read has a derivation

The statements, functions and programs that are read derive from the grammar, and
the tree that is built from the derivation is the one that was read.  As for
expressions, there is one rule for each production, which says what it yields, and
the induction follows the readers.
-/

namespace FlatCode.Surface

open Token (Ending Kind Parsed accept expect)
open FlatCode.Stmt (LoopLabels Numbered Scope skipSemicolon parseValue
  parseCondition parseAssigned parseAssignment parseReturn)

/-! ## Statements with their trees -/

/-- The tokens start with an expression that ends a statement, and `value` is its
normalized tree. -/
def ValueYields (functions : List Callee) (value : FlatCode.Expr)
    (before after : List Token) : Prop :=
  ∃ (tree : Expr) (loose : FlatCode.Expr),
    ValueDerives tree before after ∧
      tree.build .reading functions = some loose ∧ loose.normalize = value

/-- The tokens start with an expression in parentheses, whose tree is `value`. -/
def ConditionYields (functions : List Callee) (value : FlatCode.Expr)
    (before after : List Token) : Prop :=
  ∃ (tree : Expr) (opening close : Token) (rest : List Token),
    before = opening :: rest ∧ opening.kind = .lparen ∧
      LevelDerives binaryLevels tree rest (close :: after) ∧
        close.kind = .rparen ∧ tree.build .reading functions = some value

/-- The tokens start with a statement, which is built into `result`. -/
def StmtYields (around : Surroundings) (created : Nat)
    (result : Numbered FlatCode.Stmt) (before after : List Token) : Prop :=
  ∃ tree : Stmt,
    StmtDerives tree before after ∧
      tree.build .reading around created = some result

def StmtsYield (around : Surroundings) (created : Nat)
    (result : Numbered (List FlatCode.Stmt)) (before after : List Token) :
    Prop :=
  ∃ trees : List Stmt,
    StmtsDerive trees before after ∧
      Stmt.buildAll .reading around created trees = some result

section Rules

variable {around : Surroundings} {created : Nat}
  {value index : FlatCode.Expr} {first second : Numbered FlatCode.Stmt}
  {others : Numbered (List FlatCode.Stmt)} {labels : LoopLabels}
  {function : String} {word opening close sign between : Token}
  {before rest middle behind later after : List Token}

theorem StmtYields.assign
    (identifier : word.kind = .identifier) (isSign : sign.kind = .assign)
    (assigned : ValueYields around.functions value rest middle)
    (semicolon : SemicolonDerives middle after) :
    StmtYields around created (.assign word.payload value, created)
      (word :: sign :: rest) after := by
  obtain ⟨tree, loose, derived, built, rfl⟩ := assigned
  refine
    ⟨.assign word.payload tree, .assign identifier isSign derived semicolon, ?_⟩
  rw [Stmt.build, built]
  rfl

theorem StmtYields.store
    (identifier : word.kind = .identifier) (opens : opening.kind = .lbracket)
    (place : ValueYields around.functions index rest (close :: sign :: behind))
    (closes : close.kind = .rbracket) (isSign : sign.kind = .assign)
    (stored : ValueYields around.functions value behind middle)
    (semicolon : SemicolonDerives middle after) :
    StmtYields around created (.store word.payload index value, created)
      (word :: opening :: rest) after := by
  obtain ⟨placeTree, _, ⟨placeDerived, _⟩, placeBuilt, rfl⟩ := place
  obtain ⟨tree, _, derived, built, rfl⟩ := stored
  refine
    ⟨.store word.payload placeTree tree,
      .store identifier opens placeDerived closes isSign derived semicolon, ?_⟩
  rw [Stmt.build, placeBuilt, built]
  rfl

theorem StmtYields.ifThen
    (isIf : word.kind = .kwIf)
    (condition : ConditionYields around.functions value rest behind)
    (thenBranch : StmtYields around created first behind after)
    (noElse : nextKind after ≠ .kwElse) :
    StmtYields around created (.ifThen value first.1, first.2)
      (word :: rest) after := by
  obtain ⟨test, opening, close, inner, rfl, opens, derived, closes, built⟩ :=
    condition
  obtain ⟨tree, thenDerived, thenBuilt⟩ := thenBranch
  refine
    ⟨.ifThen test tree,
      .ifThen isIf opens derived closes thenDerived noElse, ?_⟩
  rw [Stmt.build, built, thenBuilt]
  rfl

theorem StmtYields.ifElse
    (isIf : word.kind = .kwIf)
    (condition : ConditionYields around.functions value rest behind)
    (thenBranch :
      StmtYields around created first behind (between :: later))
    (isElse : between.kind = .kwElse)
    (elseBranch : StmtYields around first.2 second later after) :
    StmtYields around created (.ifElse value first.1 second.1, second.2)
      (word :: rest) after := by
  obtain ⟨test, opening, close, inner, rfl, opens, derived, closes, built⟩ :=
    condition
  obtain ⟨thenTree, thenDerived, thenBuilt⟩ := thenBranch
  obtain ⟨elseTree, elseDerived, elseBuilt⟩ := elseBranch
  refine
    ⟨.ifElse test thenTree elseTree,
      .ifElse isIf opens derived closes thenDerived isElse elseDerived, ?_⟩
  rw [Stmt.build, built, thenBuilt]
  simp only [Option.bind_eq_bind, Option.bind_some, elseBuilt]

theorem StmtYields.loop
    (isWhile : word.kind = .kwWhile)
    (condition : ConditionYields around.functions value rest behind)
    (body :
      StmtYields { around with loop := some ⟨⟨created⟩, ⟨created + 1⟩⟩ }
        (created + 2) first behind after) :
    StmtYields around created
      (.loop ⟨created⟩ ⟨created + 1⟩ value first.1, first.2)
      (word :: rest) after := by
  obtain ⟨test, opening, close, inner, rfl, opens, derived, closes, built⟩ :=
    condition
  obtain ⟨tree, bodyDerived, bodyBuilt⟩ := body
  refine
    ⟨.loop test tree, .loop isWhile opens derived closes bodyDerived, ?_⟩
  rw [Stmt.build, built, bodyBuilt]
  rfl

theorem StmtYields.ret
    (isReturn : word.kind = .kwReturn)
    (inside : around.function = some function)
    (foreign : nextKind rest ∉ resultStarts)
    (semicolon : SemicolonDerives rest after) :
    StmtYields around created (.ret function none, created)
      (word :: rest) after := by
  refine ⟨.ret none, .ret isReturn foreign semicolon, ?_⟩
  rw [Stmt.build, inside]
  rfl

theorem StmtYields.retValue
    (isReturn : word.kind = .kwReturn)
    (inside : around.function = some function)
    (starts : nextKind rest ∈ resultStarts)
    (result : ValueYields around.functions value rest middle)
    (semicolon : SemicolonDerives middle after) :
    StmtYields around created (.ret function (some value), created)
      (word :: rest) after := by
  obtain ⟨tree, _, derived, built, rfl⟩ := result
  refine
    ⟨.ret (some tree), .retValue isReturn starts derived semicolon, ?_⟩
  rw [Stmt.build, inside, built]
  rfl

theorem StmtYields.leave
    (isBreak : word.kind = .kwBreak) (inside : around.loop = some labels)
    (semicolon : SemicolonDerives rest after) :
    StmtYields around created (.jump labels.exit, created)
      (word :: rest) after := by
  refine ⟨.leave, .leave isBreak semicolon, ?_⟩
  rw [Stmt.build, inside]
  rfl

theorem StmtYields.again
    (isContinue : word.kind = .kwContinue)
    (inside : around.loop = some labels)
    (semicolon : SemicolonDerives rest after) :
    StmtYields around created (.jump labels.home, created)
      (word :: rest) after := by
  refine ⟨.again, .again isContinue semicolon, ?_⟩
  rw [Stmt.build, inside]
  rfl

theorem StmtYields.raw (isRaw : word.kind = .raw) :
    StmtYields around created (.raw word.payload, created)
      (word :: after) after :=
  ⟨.raw word.payload, .raw after isRaw, by rw [Stmt.build]⟩

theorem StmtYields.block
    (opens : opening.kind = .lbrace)
    (body : StmtsYield around created others rest (close :: after))
    (closes : close.kind = .rbrace) :
    StmtYields around created (.block others.1, others.2)
      (opening :: rest) after := by
  obtain ⟨trees, derived, built⟩ := body
  refine ⟨.block trees, .block opens derived closes, ?_⟩
  rw [Stmt.build, built]
  rfl

theorem StmtYields.empty (isSemicolon : word.kind = .semicolon) :
    StmtYields around created (.empty, created) (word :: after) after :=
  ⟨.empty, .empty after isSemicolon, by rw [Stmt.build]⟩

theorem StmtsYield.nil : StmtsYield around created ([], created) after after :=
  ⟨[], .nil after, by rw [Stmt.buildAll]⟩

theorem StmtsYield.cons
    (head : StmtYields around created first before middle)
    (tail : StmtsYield around first.2 others middle after) :
    StmtsYield around created (first.1 :: others.1, others.2)
      before after := by
  obtain ⟨tree, derived, built⟩ := head
  obtain ⟨trees, othersDerived, othersBuilt⟩ := tail
  refine ⟨tree :: trees, .cons derived othersDerived, ?_⟩
  rw [Stmt.buildAll, built]
  simp only [Option.bind_eq_bind, Option.bind_some, othersBuilt]

end Rules

/-! ## Readers of the parts of statements -/

def surroundings (scope : Scope) : Surroundings :=
  ⟨scope.expressions.functions, scope.function, scope.loop⟩

section Readers

variable {scope : Scope} {tokens : List Token}

theorem semicolon_of_skipSemicolon
    {α : Type} {limit : Nat} {parsed ended : Parsed α limit}
    (read : skipSemicolon scope parsed = .ok ended) :
    ended.value = parsed.value ∧ SemicolonDerives parsed.rest ended.rest := by
  unfold skipSemicolon at read
  obtain ⟨next, nextParsed, read⟩ := bind_eq_ok_iff.mp read
  cases next with
  | none =>
      cases read
      exact ⟨rfl, .absent (Token.nextKind_ne_of_accept nextParsed (by decide))⟩
  | some semicolon =>
      cases read
      obtain ⟨split, isSemicolon⟩ := Token.eq_cons_of_accept nextParsed
      have taken := SemicolonDerives.taken semicolon.rest isSemicolon
      rw [← split] at taken
      exact ⟨rfl, taken⟩

theorem value_of_parseValue
    {parsed : Parsed FlatCode.Expr tokens.length}
    (read : parseValue scope tokens = .ok parsed) :
    ValueYields scope.expressions.functions parsed.value tokens
      parsed.rest := by
  obtain ⟨value, valueParsed, read⟩ := bind_eq_ok_iff.mp read
  cases read
  obtain ⟨⟨tree, derived, built⟩, stops⟩ := yields_of_parse valueParsed
  exact ⟨tree, value.value, ⟨derived, stops⟩, built, rfl⟩

theorem condition_of_parseCondition
    {parsed : Parsed FlatCode.Expr tokens.length}
    (read : parseCondition scope tokens = .ok parsed) :
    ConditionYields scope.expressions.functions parsed.value tokens
      parsed.rest := by
  obtain ⟨opening, openingParsed, read⟩ := bind_eq_ok_iff.mp read
  obtain ⟨condition, conditionParsed, read⟩ := bind_eq_ok_iff.mp read
  obtain ⟨close, closeParsed, read⟩ := bind_eq_ok_iff.mp read
  cases read
  obtain ⟨split, opens⟩ := Token.eq_cons_of_expect openingParsed
  obtain ⟨behind, closes⟩ := Token.eq_cons_of_expect closeParsed
  obtain ⟨⟨tree, derived, built⟩, _⟩ := yields_of_parse conditionParsed
  rw [behind] at derived
  exact
    ⟨tree, opening.value, close.value, opening.rest, split, opens, derived,
      closes, built⟩

theorem assigned_of_parseAssigned
    {parsed : Parsed FlatCode.Expr tokens.length}
    (read : parseAssigned scope tokens = .ok parsed) :
    ∃ sign rest,
      tokens = sign :: rest ∧ sign.kind = .assign ∧
        ValueYields scope.expressions.functions parsed.value rest
          parsed.rest := by
  obtain ⟨sign, signParsed, read⟩ := bind_eq_ok_iff.mp read
  obtain ⟨value, valueParsed, read⟩ := bind_eq_ok_iff.mp read
  cases read
  obtain ⟨split, isSign⟩ := Token.eq_cons_of_expect signParsed
  exact
    ⟨sign.value, sign.rest, split, isSign, value_of_parseValue valueParsed⟩

theorem stmt_of_parseAssignment
    {name : Token} {parsed : Parsed FlatCode.Stmt tokens.length}
    (identifier : name.kind = .identifier)
    (read : parseAssignment scope name.payload tokens = .ok parsed)
    {after : List Token} (semicolon : SemicolonDerives parsed.rest after)
    (created : Nat) :
    StmtYields (surroundings scope) created (parsed.value, created)
      (name :: tokens) after := by
  obtain ⟨bracket, bracketParsed, read⟩ := bind_eq_ok_iff.mp read
  cases bracket with
  | none =>
      obtain ⟨value, valueParsed, read⟩ := bind_eq_ok_iff.mp read
      cases read
      obtain ⟨sign, rest, split, isSign, assigned⟩ :=
        assigned_of_parseAssigned valueParsed
      have yields :
          StmtYields (surroundings scope) created
            (.assign name.payload value.value, created)
            (name :: sign :: rest) after :=
        .assign identifier isSign assigned semicolon
      rw [← split] at yields
      exact yields
  | some opening =>
      obtain ⟨index, indexParsed, read⟩ := bind_eq_ok_iff.mp read
      obtain ⟨close, closeParsed, read⟩ := bind_eq_ok_iff.mp read
      obtain ⟨value, valueParsed, read⟩ := bind_eq_ok_iff.mp read
      cases read
      obtain ⟨split, opens⟩ := Token.eq_cons_of_accept bracketParsed
      obtain ⟨behind, closes⟩ := Token.eq_cons_of_expect closeParsed
      obtain ⟨sign, rest, further, isSign, stored⟩ :=
        assigned_of_parseAssigned valueParsed
      have place := value_of_parseValue indexParsed
      rw [behind, further] at place
      have yields :
          StmtYields (surroundings scope) created
            (.store name.payload index.value value.value, created)
            (name :: opening.value :: opening.rest) after :=
        .store identifier opens place closes isSign stored semicolon
      rw [← split] at yields
      exact yields

theorem startsResult_iff_mem (kind : Kind) :
    FlatCode.Stmt.startsResult kind = true ↔ kind ∈ resultStarts := by
  cases kind <;> decide

theorem stmt_of_parseReturn
    {word : Token} {parsed : Parsed FlatCode.Stmt (tokens.length + 1)}
    (isReturn : word.kind = .kwReturn)
    (read : parseReturn scope word tokens = .ok parsed)
    {after : List Token} (semicolon : SemicolonDerives parsed.rest after)
    (created : Nat) :
    StmtYields (surroundings scope) created (parsed.value, created)
      (word :: tokens) after := by
  unfold parseReturn at read
  split at read
  · cases read
  · next function inside =>
      obtain ⟨next, nextRead, read⟩ := bind_eq_ok_iff.mp read
      split at read
      · next starts =>
          obtain ⟨value, valueParsed, read⟩ := bind_eq_ok_iff.mp read
          cases read
          have first : nextKind tokens ∈ resultStarts := by
            cases tokens with
            | nil =>
                -- A value takes a token, and none is left.
                exact absurd value.rest_length_lt (Nat.not_lt_zero _)
            | cons token rest =>
                cases nextRead
                exact (startsResult_iff_mem _).mp starts
          exact
            .retValue isReturn inside first (value_of_parseValue valueParsed)
              semicolon
      · next foreign =>
          cases read
          have first : nextKind tokens ∉ resultStarts := by
            cases tokens with
            | nil =>
                decide
            | cons token rest =>
                cases nextRead
                exact fun member =>
                  foreign ((startsResult_iff_mem _).mpr member)
          exact .ret isReturn inside first semicolon

/-! ## One step of each reader of statements -/

def StmtRead (scope : Scope) (created : Nat) (tokens : List Token) : Prop :=
  ∀ parsed, FlatCode.Stmt.parse scope created tokens = .ok parsed →
    StmtYields (surroundings scope) created parsed.value tokens parsed.rest

def StmtsRead (scope : Scope) (created : Nat) (tokens : List Token) : Prop :=
  ∀ parsed, FlatCode.Stmt.parseMany scope created tokens = .ok parsed →
    StmtsYield (surroundings scope) created parsed.value tokens parsed.rest

variable {created : Nat} {token : Token} {rest : List Token}

theorem stmtRead_assignment (identifier : token.kind = .identifier) :
    StmtRead scope created (token :: rest) := by
  intro parsed read
  rw [FlatCode.Stmt.parse] at read
  simp only [identifier] at read
  obtain ⟨stmt, stmtParsed, read⟩ := bind_eq_ok_iff.mp read
  obtain ⟨ended, endedParsed, read⟩ := bind_eq_ok_iff.mp read
  cases read
  obtain ⟨same, semicolon⟩ := semicolon_of_skipSemicolon endedParsed
  have yields :=
    stmt_of_parseAssignment identifier stmtParsed semicolon created
  rw [← same] at yields
  exact yields

theorem stmtRead_if
    (word : token.kind = .kwIf)
    (thenRead : ∀ condition : Parsed FlatCode.Expr rest.length,
      StmtRead scope created condition.rest)
    (elseRead :
      ∀ (condition : Parsed FlatCode.Expr rest.length)
        (thenBranch : Parsed (Numbered FlatCode.Stmt) condition.rest.length)
        (between : Parsed Token thenBranch.rest.length),
        StmtRead scope thenBranch.value.2 between.rest) :
    StmtRead scope created (token :: rest) := by
  intro parsed read
  rw [FlatCode.Stmt.parse] at read
  simp only [word] at read
  obtain ⟨condition, conditionParsed, read⟩ := bind_eq_ok_iff.mp read
  obtain ⟨thenBranch, thenParsed, read⟩ := bind_eq_ok_iff.mp read
  obtain ⟨between, betweenParsed, read⟩ := bind_eq_ok_iff.mp read
  have test := condition_of_parseCondition conditionParsed
  have first := thenRead condition thenBranch thenParsed
  cases between with
  | none =>
      cases read
      have noElse := Token.nextKind_ne_of_accept betweenParsed (by decide)
      exact .ifThen word test first noElse
  | some between =>
      obtain ⟨elseBranch, elseParsed, read⟩ := bind_eq_ok_iff.mp read
      cases read
      obtain ⟨split, isElse⟩ := Token.eq_cons_of_accept betweenParsed
      have second :=
        elseRead condition thenBranch between elseBranch elseParsed
      rw [split] at first
      exact .ifElse word test first isElse second

theorem stmtRead_while
    (word : token.kind = .kwWhile)
    (bodyRead : ∀ condition : Parsed FlatCode.Expr rest.length,
      StmtRead { scope with loop := some ⟨⟨created⟩, ⟨created + 1⟩⟩ }
        (created + 2) condition.rest) :
    StmtRead scope created (token :: rest) := by
  intro parsed read
  rw [FlatCode.Stmt.parse] at read
  simp only [word] at read
  obtain ⟨condition, conditionParsed, read⟩ := bind_eq_ok_iff.mp read
  obtain ⟨body, bodyParsed, read⟩ := bind_eq_ok_iff.mp read
  cases read
  exact
    .loop word (condition_of_parseCondition conditionParsed)
      (bodyRead condition body bodyParsed)

theorem stmtRead_return (word : token.kind = .kwReturn) :
    StmtRead scope created (token :: rest) := by
  intro parsed read
  rw [FlatCode.Stmt.parse] at read
  simp only [word] at read
  obtain ⟨stmt, stmtParsed, read⟩ := bind_eq_ok_iff.mp read
  obtain ⟨ended, endedParsed, read⟩ := bind_eq_ok_iff.mp read
  cases read
  obtain ⟨same, semicolon⟩ := semicolon_of_skipSemicolon endedParsed
  have yields := stmt_of_parseReturn word stmtParsed semicolon created
  rw [← same] at yields
  exact yields

theorem stmtRead_break (word : token.kind = .kwBreak) :
    StmtRead scope created (token :: rest) := by
  intro parsed read
  rw [FlatCode.Stmt.parse] at read
  simp only [word] at read
  obtain ⟨labels, found, read⟩ := bind_eq_ok_iff.mp read
  obtain ⟨same, semicolon⟩ := semicolon_of_skipSemicolon read
  rw [same]
  exact .leave word (FlatCode.Stmt.loop_of_enclosingLoop found) semicolon

theorem stmtRead_continue (word : token.kind = .kwContinue) :
    StmtRead scope created (token :: rest) := by
  intro parsed read
  rw [FlatCode.Stmt.parse] at read
  simp only [word] at read
  obtain ⟨labels, found, read⟩ := bind_eq_ok_iff.mp read
  obtain ⟨same, semicolon⟩ := semicolon_of_skipSemicolon read
  rw [same]
  exact .again word (FlatCode.Stmt.loop_of_enclosingLoop found) semicolon

theorem stmtRead_raw (word : token.kind = .raw) :
    StmtRead scope created (token :: rest) := by
  intro parsed read
  rw [FlatCode.Stmt.parse] at read
  simp only [word] at read
  cases read
  exact .raw word

theorem stmtRead_block
    (word : token.kind = .lbrace)
    (bodyRead : StmtsRead scope created rest) :
    StmtRead scope created (token :: rest) := by
  intro parsed read
  rw [FlatCode.Stmt.parse] at read
  simp only [word] at read
  obtain ⟨body, bodyParsed, read⟩ := bind_eq_ok_iff.mp read
  obtain ⟨close, closeParsed, read⟩ := bind_eq_ok_iff.mp read
  cases read
  obtain ⟨split, closes⟩ := Token.eq_cons_of_expect closeParsed
  have inner := bodyRead body bodyParsed
  rw [split] at inner
  exact .block word inner closes

theorem stmtRead_empty (word : token.kind = .semicolon) :
    StmtRead scope created (token :: rest) := by
  intro parsed read
  rw [FlatCode.Stmt.parse] at read
  simp only [word] at read
  cases read
  exact .empty word

theorem stmtRead_nil : StmtRead scope created [] := by
  intro parsed read
  exact absurd parsed.rest_length_lt (Nat.not_lt_zero _)

theorem stmtRead_other
    (foreign : FlatCode.Stmt.startsStatement token.kind = false) :
    StmtRead scope created (token :: rest) := by
  intro parsed read
  rw [FlatCode.Stmt.parse] at read
  split at read
  case h_10 =>
      cases read
  all_goals
    rename_i word
    simp [FlatCode.Stmt.startsStatement, word] at foreign

theorem stmtsRead_step
    (firstRead : StmtRead scope created tokens)
    (othersRead : ∀ first : Parsed (Numbered FlatCode.Stmt) tokens.length,
      StmtsRead scope first.value.2 first.rest) :
    StmtsRead scope created tokens := by
  intro parsed read
  rw [FlatCode.Stmt.parseMany] at read
  obtain ⟨next, _, read⟩ := bind_eq_ok_iff.mp read
  split at read
  · obtain ⟨first, firstParsed, read⟩ := bind_eq_ok_iff.mp read
    obtain ⟨others, othersParsed, read⟩ := bind_eq_ok_iff.mp read
    cases read
    exact
      .cons (firstRead first firstParsed)
        (othersRead first others othersParsed)
  · cases read
    exact .nil

/-- The tokens of statements that are read derive from the grammar. -/
theorem yields_of_parseMany
    {parsed : Parsed (Numbered (List FlatCode.Stmt)) (tokens.length + 1)}
    (read : FlatCode.Stmt.parseMany scope created tokens = .ok parsed) :
    StmtsYield (surroundings scope) created parsed.value tokens
      parsed.rest := by
  have readers :=
    FlatCode.Stmt.parse.mutual_induct StmtRead StmtsRead
      (fun _ _ => stmtRead_nil)
      (fun _ _ _ _ => stmtRead_assignment)
      (fun _ _ _ _ => stmtRead_if)
      (fun _ _ _ _ => stmtRead_while)
      (fun _ _ _ _ => stmtRead_return)
      (fun _ _ _ _ => stmtRead_break)
      (fun _ _ _ _ => stmtRead_continue)
      (fun _ _ _ _ => stmtRead_raw)
      (fun _ _ _ _ => stmtRead_block)
      (fun _ _ _ _ => stmtRead_empty)
      (by
        intro scope created token rest
        intros
        apply stmtRead_other
        cases kind : token.kind <;> first | rfl | contradiction)
      (fun _ _ _ => stmtsRead_step)
  exact readers.2 scope created tokens parsed read

end Readers

/-! ## Functions and programs -/

section Functions

variable {ending : Ending} {tokens : List Token}

theorem params_of_parseParams
    {params : List String} {parsed : Parsed (List String) tokens.length}
    (read :
      FlatCode.Function.parseParams ending params tokens = .ok parsed) :
    ∃ names,
      parsed.value = params ++ names ∧
        ParamsDerive names tokens parsed.rest := by
  induction params, tokens using FlatCode.Function.parseParams.induct with
  | case1 params tokens inductionHypothesis =>
      rw [FlatCode.Function.parseParams] at read
      obtain ⟨word, wordParsed, read⟩ := bind_eq_ok_iff.mp read
      obtain ⟨param, checked, read⟩ := bind_eq_ok_iff.mp read
      obtain ⟨separator, separatorParsed, read⟩ := bind_eq_ok_iff.mp read
      obtain ⟨rfl, _⟩ := FlatCode.Function.checkParam_eq_ok checked
      obtain ⟨split, identifier⟩ := Token.eq_cons_of_expect wordParsed
      cases separator with
      | none =>
          cases read
          have derived := ParamsDerive.last word.rest identifier
          rw [← split] at derived
          exact ⟨[word.value.payload], rfl, derived⟩
      | some comma =>
          obtain ⟨all, allParsed, read⟩ := bind_eq_ok_iff.mp read
          cases read
          obtain ⟨behind, separates⟩ :=
            Token.eq_cons_of_accept separatorParsed
          obtain ⟨names, listed, others⟩ :=
            inductionHypothesis word word.value.payload comma allParsed
          have derived := ParamsDerive.more identifier separates others
          rw [← behind, ← split] at derived
          refine ⟨word.value.payload :: names, ?_, derived⟩
          simp [listed]

theorem signature_of_parseSignature
    {parsed : Parsed (List String) tokens.length}
    (read : FlatCode.Function.parseSignature ending tokens = .ok parsed) :
    SignatureDerives parsed.value tokens parsed.rest := by
  obtain ⟨opening, openingParsed, read⟩ := bind_eq_ok_iff.mp read
  obtain ⟨close, closeParsed, read⟩ := bind_eq_ok_iff.mp read
  obtain ⟨split, opens⟩ := Token.eq_cons_of_expect openingParsed
  cases close with
  | some close =>
      cases read
      obtain ⟨behind, closes⟩ := Token.eq_cons_of_accept closeParsed
      have derived := SignatureDerives.none close.rest opens closes
      rw [← behind, ← split] at derived
      exact derived
  | none =>
      obtain ⟨params, paramsParsed, read⟩ := bind_eq_ok_iff.mp read
      obtain ⟨close, closeParsed, read⟩ := bind_eq_ok_iff.mp read
      cases read
      obtain ⟨behind, closes⟩ := Token.eq_cons_of_expect closeParsed
      obtain ⟨names, listed, inner⟩ := params_of_parseParams paramsParsed
      rw [behind] at inner
      have derived := SignatureDerives.some opens inner closes
      rw [← split] at derived
      rw [List.nil_append] at listed
      rw [← listed] at derived
      exact derived

theorem function_of_parse
    {word : Token} {functions : List FlatCode.Function} {created : Nat}
    {parsed : Parsed (Numbered FlatCode.Function) tokens.length}
    (isDef : word.kind = .kwDef)
    (read :
      FlatCode.Function.parse ending functions created tokens = .ok parsed) :
    ∃ tree : Function,
      FunctionDerives tree (word :: tokens) parsed.rest ∧
        tree.build .reading functions created = some parsed.value := by
  obtain ⟨name, nameParsed, read⟩ := bind_eq_ok_iff.mp read
  obtain ⟨text, checked, read⟩ := bind_eq_ok_iff.mp read
  obtain ⟨params, paramsParsed, read⟩ := bind_eq_ok_iff.mp read
  obtain ⟨opening, openingParsed, read⟩ := bind_eq_ok_iff.mp read
  obtain ⟨body, bodyParsed, read⟩ := bind_eq_ok_iff.mp read
  obtain ⟨close, closeParsed, read⟩ := bind_eq_ok_iff.mp read
  cases read
  obtain ⟨rfl, fresh, notBuiltin⟩ :=
    FlatCode.Function.checkName_eq_ok checked
  obtain ⟨split, identifier⟩ := Token.eq_cons_of_expect nameParsed
  obtain ⟨behind, opens⟩ := Token.eq_cons_of_expect openingParsed
  obtain ⟨further, closes⟩ := Token.eq_cons_of_expect closeParsed
  have signature := signature_of_parseSignature paramsParsed
  have anyToken : ∀ token ∈ name.rest, True := fun _ _ => trivial
  have paramsNodup : params.value.Nodup :=
    (FlatCode.Function.sound_of_parseSignature anyToken paramsParsed).value.1
  obtain ⟨trees, inner, built⟩ := yields_of_parseMany bodyParsed
  rw [behind] at signature
  rw [further] at inner
  have derived :=
    FunctionDerives.mk isDef identifier signature opens inner closes
  rw [← split] at derived
  refine ⟨⟨name.value.payload, params.value, trees⟩, derived, ?_⟩
  rw [Function.build, if_pos ⟨fresh, notBuiltin, paramsNodup⟩]
  simp only [surroundings] at built
  simp only [built]
  rfl

theorem functions_of_parseFunctions
    {functions : List FlatCode.Function} {created : Nat}
    {parsed :
      Parsed (Numbered (List FlatCode.Function)) (tokens.length + 1)}
    (read :
      FlatCode.Program.parseFunctions ending functions created tokens =
        .ok parsed) :
    ∃ trees,
      FunctionsDerive trees tokens parsed.rest ∧
        Function.buildAll .reading functions created trees =
          some parsed.value := by
  induction functions, created, tokens using
    FlatCode.Program.parseFunctions.induct with
  | case1 functions created tokens inductionHypothesis =>
      rw [FlatCode.Program.parseFunctions] at read
      obtain ⟨word, wordParsed, read⟩ := bind_eq_ok_iff.mp read
      cases word with
      | none =>
          cases read
          exact ⟨[], .nil tokens, rfl⟩
      | some word =>
          obtain ⟨function, functionParsed, read⟩ := bind_eq_ok_iff.mp read
          obtain ⟨all, allParsed, read⟩ := bind_eq_ok_iff.mp read
          cases read
          obtain ⟨split, isDef⟩ := Token.eq_cons_of_accept wordParsed
          obtain ⟨tree, derived, built⟩ := function_of_parse isDef functionParsed
          obtain ⟨trees, othersDerived, othersBuilt⟩ :=
            inductionHypothesis word function allParsed
          rw [← split] at derived
          refine ⟨tree :: trees, .cons derived othersDerived, ?_⟩
          rw [Function.buildAll, built]
          exact othersBuilt

/-- A program that is read derives from the grammar. -/
theorem derives_of_ofStream
    {stream : Token.Stream} {last : Token} {program : FlatCode.Program}
    (isLast : last.kind = .eof)
    (read : FlatCode.Program.ofStream stream = .ok program) :
    ∃ tree : Program,
      tree.Derives (stream.tokens ++ [last]) ∧
        tree.build .reading = some program := by
  obtain ⟨functions, functionsParsed, read⟩ := bind_eq_ok_iff.mp read
  obtain ⟨main, mainParsed, read⟩ := bind_eq_ok_iff.mp read
  obtain ⟨_, endParsed, read⟩ := bind_eq_ok_iff.mp read
  cases read
  obtain ⟨functionTrees, functionsDerived, functionsBuilt⟩ :=
    functions_of_parseFunctions functionsParsed
  obtain ⟨mainTrees, mainDerived, mainBuilt⟩ := yields_of_parseMany mainParsed
  have nothing : main.rest = [] := by
    cases left : main.rest with
    | nil =>
        rfl
    | cons token rest =>
        rw [left] at endParsed
        cases endParsed
  rw [nothing] at mainDerived
  refine
    ⟨⟨functionTrees, mainTrees⟩,
      ⟨stream.tokens, last, functions.rest, rfl, isLast, functionsDerived,
        mainDerived⟩, ?_⟩
  simp only [surroundings] at mainBuilt
  simp only [Program.build, functionsBuilt, Option.bind_eq_bind,
    Option.bind_some, mainBuilt]

end Functions

end FlatCode.Surface
