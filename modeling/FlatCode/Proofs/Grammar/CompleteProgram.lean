import FlatCode.Proofs.Grammar.CompleteExpr
import FlatCode.Proofs.Grammar.SoundProgram

/-!
# Every derivation of a program is read

A derived statement is read if what stands behind it cannot be taken for a part of
its last expression.  Behind a statement stands another statement, a word `else`, a
closing brace or the end of the input, none of which can; so derived statements,
functions and programs are read as a whole.

The words that the grammar takes whenever they come next, the semicolon and `else`,
are taken by the readers in the same places.
-/

namespace FlatCode.Surface

open Token (Ending Kind Parsed Reads expect_cons reads_expect accept_cons
  exists_accept accept_eq_none exists_peek ok_bind)
open FlatCode.Stmt (Numbered Scope skipSemicolon parseValue parseCondition
  parseAssigned parseAssignment parseReturn startsStatement)

/-! ## The parts of statements -/

section Parts

variable {scope : Scope} {last : Token}
  {tokens before middle rest after : List Token}

theorem SemicolonDerives.detached
    (semicolon : SemicolonDerives middle after) (detached : Detached after) :
    Detached middle := by
  cases semicolon with
  | taken _ isSemicolon =>
      simp [Detached, isSemicolon]
  | absent _ =>
      exact detached

variable (ended : scope.ending = .ok last)

include ended

theorem reads_skipSemicolon
    {α : Type} {limit : Nat} {parsed : Parsed α limit}
    (left : parsed.rest = middle)
    (semicolon : SemicolonDerives middle after) :
    Reads (skipSemicolon scope parsed) parsed.value after := by
  unfold skipSemicolon
  cases semicolon with
  | taken _ isSemicolon =>
      obtain ⟨taken, accepted, _, rfl⟩ := exists_accept left isSemicolon
      rw [accepted]
      exact ⟨_, rfl, rfl, rfl⟩
  | absent foreign =>
      subst left
      rw [accept_eq_none ended foreign]
      exact ⟨_, rfl, rfl, rfl⟩

variable {tree : Expr} {built : FlatCode.Expr}
  (builds : tree.build .reading scope.expressions.functions = some built)

include builds

theorem reads_parseValue
    (derived : ValueDerives tree before after) (detached : Detached after) :
    Reads (parseValue scope before) built.normalize after := by
  have taken := levelTaken_of_derives ended derived.1
  apply (taken.reads_parse ended builds detached derived.2).bind
  rintro parsed rfl rfl
  exact ⟨_, rfl, rfl, rfl⟩

theorem reads_parseCondition
    {opening close : Token} (split : tokens = opening :: rest)
    (opens : opening.kind = .lparen)
    (derived : LevelDerives binaryLevels tree rest (close :: after))
    (closes : close.kind = .rparen) :
    Reads (parseCondition scope tokens) built after := by
  have taken := levelTaken_of_derives ended derived
  apply (reads_expect split opens).bind
  rintro _ _ rfl
  apply (taken.reads_of_close ended builds (by simp [closes])).bind
  rintro condition rfl split
  apply (reads_expect split closes).bind
  rintro _ _ rfl
  exact ⟨_, rfl, rfl, rfl⟩

theorem reads_parseAssigned
    {sign : Token} (split : tokens = sign :: rest)
    (isSign : sign.kind = .assign) (derived : ValueDerives tree rest after)
    (detached : Detached after) :
    Reads (parseAssigned scope tokens) built.normalize after := by
  apply (reads_expect split isSign).bind
  rintro _ _ rfl
  apply (reads_parseValue ended builds derived detached).bind
  intro _ value left
  exact ⟨_, rfl, value, left⟩

end Parts

/-! ## One statement for each class of derivations -/

theorem StmtDerives.starts
    {tree : Stmt} {before after : List Token}
    (derived : StmtDerives tree before after) :
    startsStatement (nextKind before) = true := by
  cases derived <;> simp_all [startsStatement]

/-- Behind statements comes a closing brace or the end of the input. -/
def Closed (after : List Token) : Prop :=
  nextKind after ∈ [Kind.rbrace, .eof]

theorem Closed.detached {after : List Token} (closed : Closed after) :
    Detached after := by
  have apart :
      ∀ kind ∈ [Kind.rbrace, .eof], kind ∉ [Kind.lparen, .lbracket] := by
    decide
  exact apart _ closed

theorem Closed.not_starts {after : List Token} (closed : Closed after) :
    startsStatement (nextKind after) = false := by
  have apart :
      ∀ kind ∈ [Kind.rbrace, .eof], startsStatement kind = false := by
    decide
  exact apart _ closed

theorem StmtDerives.detached
    {tree : Stmt} {before after : List Token}
    (derived : StmtDerives tree before after) :
    Detached before := by
  intro member
  have starts := derived.starts
  simp only [List.mem_cons, List.not_mem_nil, or_false] at member
  rcases member with opens | opens <;>
    simp [opens, startsStatement] at starts

/-- In front of a closing brace or the end, statements leave nothing that could be
taken for a part of an expression before them. -/
theorem StmtsDerive.detached
    {trees : List Stmt} {before after : List Token}
    (derived : StmtsDerive trees before after) (closed : Closed after) :
    Detached before := by
  cases derived with
  | nil _ =>
      exact closed.detached
  | cons first _ =>
      exact first.detached

/-- In front of a closing brace or the end, statements do not start with a function
definition. -/
theorem StmtsDerive.no_definition
    {trees : List Stmt} {before after : List Token}
    (derived : StmtsDerive trees before after) (closed : Closed after) :
    nextKind before ≠ .kwDef := by
  intro isDef
  cases derived with
  | nil _ =>
      simp [Closed, isDef] at closed
  | cons first _ =>
      have starts := first.starts
      rw [isDef] at starts
      cases starts

section Statements

variable (last : Token)

/-- The tokens of a derived statement are read. -/
def StmtTaken (tree : Stmt) (before after : List Token) : Prop :=
  ∀ (scope : Scope) (created : Nat) (result : Numbered FlatCode.Stmt),
    scope.ending = .ok last →
      tree.build .reading (surroundings scope) created = some result →
        Detached after →
          Reads (FlatCode.Stmt.parse scope created before) result after

def StmtsTaken (trees : List Stmt) (before after : List Token) : Prop :=
  ∀ (scope : Scope) (created : Nat) (result : Numbered (List FlatCode.Stmt)),
    scope.ending = .ok last →
      Stmt.buildAll .reading (surroundings scope) created trees =
          some result →
        Closed after →
          Reads (FlatCode.Stmt.parseMany scope created before) result after

end Statements

/-! ## One step for each production -/

section Steps

variable {last word opening close sign between : Token}
  {before middle rest behind later after : List Token}

theorem stmtTaken_assign
    {value : Expr} (identifier : word.kind = .identifier)
    (isSign : sign.kind = .assign) (derived : ValueDerives value rest middle)
    (semicolon : SemicolonDerives middle after) :
    StmtTaken last (.assign word.payload value) (word :: sign :: rest)
      after := by
  intro scope created result ended builds detached
  rw [Stmt.build] at builds
  obtain ⟨built, valueBuilds, builds⟩ := Option.bind_eq_some_iff.mp builds
  cases builds
  have noBracket : nextKind (sign :: rest) ≠ .lbracket := by simp [isSign]
  have assigned :
      Reads (parseAssignment scope word.payload (sign :: rest))
        (.assign word.payload built.normalize) middle := by
    rw [parseAssignment, accept_eq_none ended noBracket]
    simp only [ok_bind]
    apply (reads_parseAssigned ended valueBuilds rfl isSign derived
      (semicolon.detached detached)).bind
    intro _ stored left
    exact ⟨_, rfl, congrArg _ stored, left⟩
  rw [FlatCode.Stmt.parse]
  simp only [identifier]
  apply assigned.bind
  intro stmt assigns left
  apply (reads_skipSemicolon ended left semicolon).bind
  rintro _ same rfl
  exact ⟨_, rfl, congrArg (·, created) (same.trans assigns), rfl⟩

theorem stmtTaken_store
    {index value : Expr} (identifier : word.kind = .identifier)
    (opens : opening.kind = .lbracket)
    (indexDerived :
      LevelDerives binaryLevels index rest (close :: sign :: behind))
    (closes : close.kind = .rbracket) (isSign : sign.kind = .assign)
    (derived : ValueDerives value behind middle)
    (semicolon : SemicolonDerives middle after) :
    StmtTaken last (.store word.payload index value)
      (word :: opening :: rest) after := by
  intro scope created result ended builds detached
  rw [Stmt.build] at builds
  obtain ⟨place, placeBuilds, builds⟩ := Option.bind_eq_some_iff.mp builds
  obtain ⟨built, valueBuilds, builds⟩ := Option.bind_eq_some_iff.mp builds
  cases builds
  have indexReads :
      Reads (parseValue scope rest) place.normalize
        (close :: sign :: behind) := by
    apply reads_parseValue ended placeBuilds
    · exact ⟨indexDerived, by simp [closes, binaryLevels]⟩
    · simp [Detached, closes]
  have stored :
      Reads (parseAssignment scope word.payload (opening :: rest))
        (.store word.payload place.normalize built.normalize) middle := by
    rw [parseAssignment, accept_cons opens]
    simp only [ok_bind]
    apply indexReads.bind
    intro _ indexed split
    apply (reads_expect split closes).bind
    intro _ _ split
    apply (reads_parseAssigned ended valueBuilds split isSign derived
      (semicolon.detached detached)).bind
    intro _ assigned left
    refine ⟨_, rfl, ?_, left⟩
    rw [← indexed, ← assigned]
    rfl
  rw [FlatCode.Stmt.parse]
  simp only [identifier]
  apply stored.bind
  intro stmt assigns left
  apply (reads_skipSemicolon ended left semicolon).bind
  rintro _ same rfl
  exact ⟨_, rfl, congrArg (·, created) (same.trans assigns), rfl⟩

theorem stmtTaken_ifThen
    {condition : Expr} {thenBranch : Stmt} (isIf : word.kind = .kwIf)
    (opens : opening.kind = .lparen)
    (derived : LevelDerives binaryLevels condition rest (close :: behind))
    (closes : close.kind = .rparen)
    (thenTaken : StmtTaken last thenBranch behind after)
    (noElse : nextKind after ≠ .kwElse) :
    StmtTaken last (.ifThen condition thenBranch) (word :: opening :: rest)
      after := by
  intro scope created result ended builds detached
  rw [Stmt.build] at builds
  obtain ⟨test, testBuilds, builds⟩ := Option.bind_eq_some_iff.mp builds
  obtain ⟨first, firstBuilds, builds⟩ := Option.bind_eq_some_iff.mp builds
  cases builds
  rw [FlatCode.Stmt.parse]
  simp only [isIf]
  apply (reads_parseCondition ended testBuilds rfl opens derived closes).bind
  rintro _ rfl rfl
  apply (thenTaken scope created first ended firstBuilds detached).bind
  rintro _ rfl rfl
  rw [accept_eq_none ended noElse]
  exact ⟨_, rfl, rfl, rfl⟩

theorem stmtTaken_ifElse
    {condition : Expr} {thenBranch elseBranch : Stmt}
    (isIf : word.kind = .kwIf) (opens : opening.kind = .lparen)
    (derived : LevelDerives binaryLevels condition rest (close :: behind))
    (closes : close.kind = .rparen)
    (thenTaken : StmtTaken last thenBranch behind (between :: later))
    (isElse : between.kind = .kwElse)
    (elseTaken : StmtTaken last elseBranch later after) :
    StmtTaken last (.ifElse condition thenBranch elseBranch)
      (word :: opening :: rest) after := by
  intro scope created result ended builds detached
  rw [Stmt.build] at builds
  obtain ⟨test, testBuilds, builds⟩ := Option.bind_eq_some_iff.mp builds
  obtain ⟨first, firstBuilds, builds⟩ := Option.bind_eq_some_iff.mp builds
  obtain ⟨second, secondBuilds, builds⟩ := Option.bind_eq_some_iff.mp builds
  cases builds
  have firstReads :=
    thenTaken scope created first ended firstBuilds (by simp [Detached, isElse])
  have secondReads :=
    elseTaken scope first.2 second ended secondBuilds detached
  rw [FlatCode.Stmt.parse]
  simp only [isIf]
  apply (reads_parseCondition ended testBuilds rfl opens derived closes).bind
  rintro _ rfl rfl
  apply firstReads.bind
  rintro _ rfl split
  obtain ⟨taken, accepted, _, rfl⟩ := exists_accept split isElse
  rw [accepted]
  apply secondReads.bind
  rintro _ rfl rfl
  exact ⟨_, rfl, rfl, rfl⟩

theorem stmtTaken_loop
    {condition : Expr} {body : Stmt} (isWhile : word.kind = .kwWhile)
    (opens : opening.kind = .lparen)
    (derived : LevelDerives binaryLevels condition rest (close :: behind))
    (closes : close.kind = .rparen)
    (bodyTaken : StmtTaken last body behind after) :
    StmtTaken last (.loop condition body) (word :: opening :: rest)
      after := by
  intro scope created result ended builds detached
  rw [Stmt.build] at builds
  obtain ⟨test, testBuilds, builds⟩ := Option.bind_eq_some_iff.mp builds
  obtain ⟨repeated, bodyBuilds, builds⟩ := Option.bind_eq_some_iff.mp builds
  cases builds
  have bodyReads :=
    bodyTaken { scope with loop := some ⟨⟨created⟩, ⟨created + 1⟩⟩ }
      (created + 2) repeated ended bodyBuilds detached
  rw [FlatCode.Stmt.parse]
  simp only [isWhile]
  apply (reads_parseCondition ended testBuilds rfl opens derived closes).bind
  rintro _ rfl rfl
  apply bodyReads.bind
  rintro _ rfl rfl
  exact ⟨_, rfl, rfl, rfl⟩

/-- A return is read as soon as the part behind its first word is. -/
theorem reads_parse_return
    {scope : Scope} {created : Nat} {stmt : FlatCode.Stmt}
    (ended : scope.ending = .ok last) (isReturn : word.kind = .kwReturn)
    (returned : Reads (parseReturn scope word rest) stmt middle)
    (semicolon : SemicolonDerives middle after) :
    Reads (FlatCode.Stmt.parse scope created (word :: rest)) (stmt, created)
      after := by
  rw [FlatCode.Stmt.parse]
  simp only [isReturn]
  apply returned.bind
  rintro _ rfl left
  apply (reads_skipSemicolon ended left semicolon).bind
  rintro _ same rfl
  exact ⟨_, rfl, congrArg (·, created) same, rfl⟩

theorem stmtTaken_ret
    (isLast : last.kind = .eof) (isReturn : word.kind = .kwReturn)
    (foreign : nextKind rest ∉ resultStarts)
    (semicolon : SemicolonDerives rest after) :
    StmtTaken last (.ret none) (word :: rest) after := by
  intro scope created result ended builds detached
  rw [Stmt.build] at builds
  obtain ⟨function, inside, builds⟩ := Option.bind_eq_some_iff.mp builds
  cases builds
  have insideScope : scope.function = some function := inside
  obtain ⟨next, peeked, same⟩ := exists_peek ended isLast rest
  have noResult : ¬ FlatCode.Stmt.startsResult next.kind = true := by
    rw [startsResult_iff_mem, same]
    exact foreign
  apply reads_parse_return ended isReturn _ semicolon
  unfold parseReturn
  simp only [insideScope, peeked, ok_bind, if_neg noResult]
  exact ⟨_, rfl, rfl, rfl⟩

theorem stmtTaken_retValue
    {value : Expr} (isLast : last.kind = .eof)
    (isReturn : word.kind = .kwReturn) (starts : nextKind rest ∈ resultStarts)
    (derived : ValueDerives value rest middle)
    (semicolon : SemicolonDerives middle after) :
    StmtTaken last (.ret (some value)) (word :: rest) after := by
  intro scope created result ended builds detached
  rw [Stmt.build] at builds
  obtain ⟨function, inside, builds⟩ := Option.bind_eq_some_iff.mp builds
  obtain ⟨built, valueBuilds, builds⟩ := Option.bind_eq_some_iff.mp builds
  cases builds
  have insideScope : scope.function = some function := inside
  obtain ⟨next, peeked, same⟩ := exists_peek ended isLast rest
  have isResult : FlatCode.Stmt.startsResult next.kind = true := by
    rw [startsResult_iff_mem, same]
    exact starts
  apply reads_parse_return ended isReturn _ semicolon
  unfold parseReturn
  simp only [insideScope, peeked, ok_bind, if_pos isResult]
  apply (reads_parseValue ended valueBuilds derived
    (semicolon.detached detached)).bind
  rintro _ value rfl
  refine ⟨_, rfl, ?_, rfl⟩
  rw [← value]
  rfl

theorem stmtTaken_leave
    (isBreak : word.kind = .kwBreak)
    (semicolon : SemicolonDerives rest after) :
    StmtTaken last .leave (word :: rest) after := by
  intro scope created result ended builds _
  rw [Stmt.build] at builds
  obtain ⟨labels, inside, builds⟩ := Option.bind_eq_some_iff.mp builds
  cases builds
  have insideScope : scope.loop = some labels := inside
  rw [FlatCode.Stmt.parse]
  simp only [isBreak, FlatCode.Stmt.enclosingLoop, insideScope, ok_bind]
  exact reads_skipSemicolon ended rfl semicolon

theorem stmtTaken_again
    (isContinue : word.kind = .kwContinue)
    (semicolon : SemicolonDerives rest after) :
    StmtTaken last .again (word :: rest) after := by
  intro scope created result ended builds _
  rw [Stmt.build] at builds
  obtain ⟨labels, inside, builds⟩ := Option.bind_eq_some_iff.mp builds
  cases builds
  have insideScope : scope.loop = some labels := inside
  rw [FlatCode.Stmt.parse]
  simp only [isContinue, FlatCode.Stmt.enclosingLoop, insideScope, ok_bind]
  exact reads_skipSemicolon ended rfl semicolon

theorem stmtTaken_raw (isRaw : word.kind = .raw) :
    StmtTaken last (.raw word.payload) (word :: after) after := by
  intro scope created result _ builds _
  rw [Stmt.build] at builds
  cases builds
  rw [FlatCode.Stmt.parse]
  simp only [isRaw]
  exact ⟨_, rfl, rfl, rfl⟩

theorem stmtTaken_block
    {body : List Stmt} (opens : opening.kind = .lbrace)
    (bodyTaken : StmtsTaken last body rest (close :: after))
    (closes : close.kind = .rbrace) :
    StmtTaken last (.block body) (opening :: rest) after := by
  intro scope created result ended builds _
  rw [Stmt.build] at builds
  obtain ⟨built, bodyBuilds, builds⟩ := Option.bind_eq_some_iff.mp builds
  cases builds
  have bodyReads :=
    bodyTaken scope created built ended bodyBuilds (by simp [Closed, closes])
  rw [FlatCode.Stmt.parse]
  simp only [opens]
  apply bodyReads.bind
  rintro _ rfl split
  apply (reads_expect split closes).bind
  rintro _ _ rfl
  exact ⟨_, rfl, rfl, rfl⟩

theorem stmtTaken_empty (isSemicolon : word.kind = .semicolon) :
    StmtTaken last .empty (word :: after) after := by
  intro scope created result _ builds _
  rw [Stmt.build] at builds
  cases builds
  rw [FlatCode.Stmt.parse]
  simp only [isSemicolon]
  exact ⟨_, rfl, rfl, rfl⟩

theorem stmtsTaken_nil (isLast : last.kind = .eof) :
    StmtsTaken last [] after after := by
  intro scope created result ended builds closed
  rw [Stmt.buildAll] at builds
  cases builds
  obtain ⟨next, peeked, same⟩ := exists_peek ended isLast after
  have ends : ¬ startsStatement next.kind = true := by
    rw [same, closed.not_starts]
    decide
  rw [FlatCode.Stmt.parseMany, peeked]
  simp only [ok_bind, if_neg ends]
  exact ⟨_, rfl, rfl, rfl⟩

theorem stmtsTaken_cons
    {first : Stmt} {others : List Stmt} (isLast : last.kind = .eof)
    (firstDerived : StmtDerives first before middle)
    (firstTaken : StmtTaken last first before middle)
    (othersDerived : StmtsDerive others middle after)
    (othersTaken : StmtsTaken last others middle after) :
    StmtsTaken last (first :: others) before after := by
  intro scope created result ended builds closed
  rw [Stmt.buildAll] at builds
  obtain ⟨built, firstBuilds, builds⟩ := Option.bind_eq_some_iff.mp builds
  obtain ⟨rest, othersBuild, builds⟩ := Option.bind_eq_some_iff.mp builds
  cases builds
  have firstReads :=
    firstTaken scope created built ended firstBuilds
      (othersDerived.detached closed)
  have othersRead := othersTaken scope built.2 rest ended othersBuild closed
  obtain ⟨next, peeked, same⟩ := exists_peek ended isLast before
  have starts : startsStatement next.kind = true := by
    rw [same]
    exact firstDerived.starts
  rw [FlatCode.Stmt.parseMany, peeked]
  simp only [ok_bind, if_pos starts]
  apply firstReads.bind
  rintro _ rfl rfl
  apply othersRead.bind
  rintro _ rfl rfl
  exact ⟨_, rfl, rfl, rfl⟩

end Steps

section Derivations

variable {last : Token}

mutual

theorem stmtTaken_of_derives
    (isLast : last.kind = .eof)
    {tree : Stmt} {before after : List Token} :
    StmtDerives tree before after → StmtTaken last tree before after
  | .assign identifier isSign value semicolon =>
      stmtTaken_assign identifier isSign value semicolon
  | .store identifier opens index closes isSign value semicolon =>
      stmtTaken_store identifier opens index closes isSign value semicolon
  | .ifThen isIf opens condition closes thenBranch noElse =>
      stmtTaken_ifThen isIf opens condition closes
        (stmtTaken_of_derives isLast thenBranch) noElse
  | .ifElse isIf opens condition closes thenBranch isElse elseBranch =>
      stmtTaken_ifElse isIf opens condition closes
        (stmtTaken_of_derives isLast thenBranch) isElse
        (stmtTaken_of_derives isLast elseBranch)
  | .loop isWhile opens condition closes body =>
      stmtTaken_loop isWhile opens condition closes
        (stmtTaken_of_derives isLast body)
  | .ret isReturn foreign semicolon =>
      stmtTaken_ret isLast isReturn foreign semicolon
  | .retValue isReturn starts value semicolon =>
      stmtTaken_retValue isLast isReturn starts value semicolon
  | .leave isBreak semicolon =>
      stmtTaken_leave isBreak semicolon
  | .again isContinue semicolon =>
      stmtTaken_again isContinue semicolon
  | .raw _ isRaw =>
      stmtTaken_raw isRaw
  | .block opens body closes =>
      stmtTaken_block opens (stmtsTaken_of_derive isLast body) closes
  | .empty _ isSemicolon =>
      stmtTaken_empty isSemicolon

theorem stmtsTaken_of_derive
    (isLast : last.kind = .eof)
    {trees : List Stmt} {before after : List Token} :
    StmtsDerive trees before after → StmtsTaken last trees before after
  | .nil _ =>
      stmtsTaken_nil isLast
  | .cons first others =>
      stmtsTaken_cons isLast first (stmtTaken_of_derives isLast first) others
        (stmtsTaken_of_derive isLast others)

end

end Derivations

/-! ## Functions and programs -/

section Functions

theorem checkParam_of_not_mem
    {params : List String} {param : Token} (free : param.payload ∉ params) :
    FlatCode.Function.checkParam params param = .ok param.payload := by
  rw [FlatCode.Function.checkParam, if_neg]
  simpa using free

theorem checkName_of_fresh
    {functions : List FlatCode.Function} {name : Token}
    (free : name.payload ∉ functions.map FlatCode.Function.name)
    (notBuiltin : Callable.builtin? name.payload = none) :
    FlatCode.Function.checkName functions name = .ok name.payload := by
  rw [FlatCode.Function.checkName, if_neg]
  simpa [notBuiltin] using free

theorem not_mem_of_nodup_append
    {params others : List String} {name : String}
    (distinct : (params ++ name :: others).Nodup) :
    name ∉ params := by
  intro member
  exact
    (List.nodup_append.mp distinct).2.2 name member name List.mem_cons_self rfl

variable {last : Token} {ending : Ending} {tokens before after : List Token}

theorem ParamsDerive.starts
    {names : List String} (derived : ParamsDerive names before after) :
    nextKind before = .identifier := by
  cases derived <;> assumption

theorem FunctionDerives.starts
    {tree : Function} (derived : FunctionDerives tree before after) :
    ∃ word rest, before = word :: rest ∧ word.kind = .kwDef := by
  cases derived with
  | mk isDef _ _ _ _ _ =>
      exact ⟨_, _, rfl, isDef⟩

variable (ended : ending = .ok last)

include ended

theorem reads_parseParams
    {names : List String} (derived : ParamsDerive names before after)
    (closes : nextKind after = .rparen) (params : List String)
    (distinct : (params ++ names).Nodup) :
    Reads (FlatCode.Function.parseParams ending params before)
      (params ++ names) after := by
  induction derived generalizing params with
  | @last name after identifier =>
      have free := not_mem_of_nodup_append distinct
      have noComma : nextKind after ≠ .comma := by simp [closes]
      rw [FlatCode.Function.parseParams, expect_cons identifier]
      simp only [ok_bind, Parsed.value_stay, Parsed.rest_stay,
        checkParam_of_not_mem free, accept_eq_none ended noComma]
      exact ⟨_, rfl, rfl, rfl⟩
  | @more name comma others rest after identifier separates _
      inductionHypothesis =>
      have free := not_mem_of_nodup_append distinct
      rw [List.append_cons] at distinct ⊢
      rw [FlatCode.Function.parseParams, expect_cons identifier]
      simp only [ok_bind, Parsed.value_stay, Parsed.rest_stay,
        checkParam_of_not_mem free, accept_cons separates]
      apply (inductionHypothesis closes _ distinct).bind
      intro _ read left
      exact ⟨_, rfl, read, left⟩

theorem reads_parseSignature
    {params : List String}
    (derived : SignatureDerives params before after)
    (distinct : params.Nodup) :
    Reads (FlatCode.Function.parseSignature ending before) params after := by
  unfold FlatCode.Function.parseSignature
  cases derived with
  | none _ opens closes =>
      rw [expect_cons opens]
      simp only [ok_bind, Parsed.rest_stay, accept_cons closes]
      exact ⟨_, rfl, rfl, rfl⟩
  | @some opening close _ rest _ opens inner closes =>
      have notEmpty : nextKind rest ≠ .rparen := by
        rw [inner.starts]
        decide
      rw [expect_cons opens]
      simp only [ok_bind, Parsed.rest_stay, accept_eq_none ended notEmpty]
      apply (reads_parseParams ended inner closes [] distinct).bind
      rintro _ rfl split
      apply (reads_expect split closes).bind
      rintro _ _ rfl
      exact ⟨_, rfl, rfl, rfl⟩

theorem reads_parse_function
    {tree : Function} {word : Token} {functions : List FlatCode.Function}
    {created : Nat} {result : Numbered FlatCode.Function}
    (isLast : last.kind = .eof)
    (derived : FunctionDerives tree (word :: tokens) after)
    (builds : tree.build .reading functions created = some result) :
    Reads (FlatCode.Function.parse ending functions created tokens) result
      after := by
  cases derived with
  | @mk _ name opening close params body rest behind _ _ identifier signature
      opens inner closes =>
      rw [Function.build, Option.ite_none_right_eq_some] at builds
      obtain ⟨⟨free, notBuiltin, distinct⟩, builds⟩ := builds
      obtain ⟨built, bodyBuilds, builds⟩ := Option.bind_eq_some_iff.mp builds
      cases builds
      have bodyReads :=
        stmtsTaken_of_derive isLast inner
          ⟨⟨ending, functions.map FlatCode.Function.callee⟩,
            some name.payload, none⟩
          created built ended bodyBuilds (by simp [Closed, closes])
      unfold FlatCode.Function.parse
      rw [expect_cons identifier]
      simp only [ok_bind, Parsed.value_stay, Parsed.rest_stay,
        checkName_of_fresh free notBuiltin]
      apply (reads_parseSignature ended signature distinct).bind
      rintro _ rfl split
      apply (reads_expect split opens).bind
      rintro _ _ rfl
      apply bodyReads.bind
      rintro _ rfl split
      apply (reads_expect split closes).bind
      rintro _ _ rfl
      exact ⟨_, rfl, rfl, rfl⟩

theorem reads_parseFunctions
    {trees : List Function} (isLast : last.kind = .eof)
    (derived : FunctionsDerive trees before after)
    (noMore : nextKind after ≠ .kwDef) (functions : List FlatCode.Function)
    (created : Nat) {result : Numbered (List FlatCode.Function)}
    (builds :
      Function.buildAll .reading functions created trees = some result) :
    Reads (FlatCode.Program.parseFunctions ending functions created before)
      result after := by
  induction derived generalizing functions created with
  | nil after =>
      rw [Function.buildAll] at builds
      cases builds
      rw [FlatCode.Program.parseFunctions, accept_eq_none ended noMore]
      exact ⟨_, rfl, rfl, rfl⟩
  | @cons first others before middle after derived _ inductionHypothesis =>
      rw [Function.buildAll] at builds
      obtain ⟨built, firstBuilds, builds⟩ := Option.bind_eq_some_iff.mp builds
      have laterReads := inductionHypothesis noMore _ _ builds
      obtain ⟨word, rest, rfl, isDef⟩ := derived.starts
      rw [FlatCode.Program.parseFunctions, accept_cons isDef]
      apply (reads_parse_function ended isLast derived firstBuilds).bind
      rintro _ rfl rfl
      apply laterReads.bind
      rintro _ rfl rfl
      exact ⟨_, rfl, rfl, rfl⟩

/-- A derivation that can be built is read as what is built. -/
theorem ofStream_of_derives
    {tree : Program} {program : FlatCode.Program} (isLast : last.kind = .eof)
    (derived : tree.Derives (tokens ++ [last]))
    (builds : tree.build .reading = some program) :
    FlatCode.Program.ofStream ⟨tokens, ending⟩ = .ok program := by
  obtain ⟨all, final, middle, same, _, functionsDerived, mainDerived⟩ := derived
  obtain ⟨rfl, _⟩ := List.append_inj' same rfl
  obtain ⟨functionsBuilt, functionsBuild, builds⟩ :=
    Option.bind_eq_some_iff.mp builds
  obtain ⟨mainBuilt, mainBuilds, builds⟩ := Option.bind_eq_some_iff.mp builds
  cases builds
  have atEnd : Closed [] := by simp [Closed]
  obtain ⟨functions, functionsRead, rfl, rfl⟩ :=
    reads_parseFunctions ended isLast functionsDerived
      (mainDerived.no_definition atEnd) [] 0 functionsBuild
  obtain ⟨main, mainRead, rfl, left⟩ :=
    stmtsTaken_of_derive isLast mainDerived
      ⟨⟨ending, functions.value.1.map FlatCode.Function.callee⟩, none, none⟩
      functions.value.2 mainBuilt ended mainBuilds atEnd
  have noneLeft : Token.expectEnd ending main.rest = .ok () := by
    rw [left, ended]
    rfl
  unfold FlatCode.Program.ofStream
  simp only [functionsRead, ok_bind, mainRead, noneLeft]

end Functions

end FlatCode.Surface
