import FlatCode.Proofs.Grammar.Accepted
import FlatCode.Proofs.Relocation.Stmt

/-!
# Derivations one behind the other

Statements that are derived from some tokens are also derived when other statements
stand behind them.  What comes next is looked at in three places: an expression
would go on with a binary operator, a conditional would take an `else`, and a
statement takes a semicolon.  No statement starts with the first two.  A semicolon
that the second statements start with may be taken by the last of the first ones,
and then it is no empty statement any more: `StmtsDerive.append`.

A `return` would also look at what comes next.  It does not stand outside of
functions.

The statements behind others get labels behind theirs: `Stmt.buildAll_raise`.
-/

namespace FlatCode.Surface

open Token (Kind)
open FlatCode.Stmt (startsStatement LoopLabels Numbered)

/-! ## Expressions -/

theorem SignsDerive.append
    {signs : List Kind} {before after : List Token}
    (derived : SignsDerive signs before after) (more : List Token) :
    SignsDerive signs (before ++ more) (after ++ more) := by
  induction derived with
  | nil after =>
      exact .nil _
  | cons isSign _ inductionHypothesis =>
      exact .cons isSign inductionHypothesis

mutual

/-- An expression is derived whatever stands behind it. -/
theorem LevelDerives.append
    (more : List Token) {levels : List (List Kind)} {tree : Expr}
    {before after : List Token} :
    LevelDerives levels tree before after →
      LevelDerives levels tree (before ++ more) (after ++ more)
  | .signed signs operand =>
      .signed (signs.append more) (operand.append more)
  | .tighter level inner =>
      .tighter level (inner.append more)
  | .binary lhs isSign rhs =>
      .binary (lhs.append more) isSign (rhs.append more)

theorem OperandDerives.append
    (more : List Token) {tree : Expr} {before after : List Token} :
    OperandDerives tree before after →
      OperandDerives tree (before ++ more) (after ++ more)
  | .number _ isNumber =>
      .number _ isNumber
  | .word _ identifier =>
      .word _ identifier
  | .index identifier opens inner closes =>
      .index identifier opens (inner.append more) closes
  | .callEmpty _ identifier opens closes =>
      .callEmpty _ identifier opens closes
  | .call identifier opens args closes =>
      .call identifier opens (args.append more) closes
  | .group opens inner closes =>
      .group opens (inner.append more) closes

theorem ArgumentsDerive.append
    (more : List Token) {trees : List Expr} {before after : List Token} :
    ArgumentsDerive trees before after →
      ArgumentsDerive trees (before ++ more) (after ++ more)
  | .last expr =>
      .last (expr.append more)
  | .more expr separates others =>
      .more (expr.append more) separates (others.append more)

end

/-! ## What comes next -/

/-- No token of the text is a part of what stands before it, but for a semicolon. -/
structure Apart (more : List Token) : Prop where
  no_operator : nextKind more ∉ binaryLevels.flatten
  no_else : nextKind more ≠ .kwElse
  no_else_behind : ∀ semicolon rest, more = semicolon :: rest →
    semicolon.kind = .semicolon → nextKind rest ≠ .kwElse

/-- What left `after` leaves `rest` with `more` behind it: all of `more`, or `more`
without a semicolon if nothing was left before. -/
inductive Leaves (after more : List Token) : List Token → Prop
  | all : Leaves after more (after ++ more)
  | semicolon {token : Token} {rest : List Token} :
      after = [] → token.kind = .semicolon → more = token :: rest →
        Leaves after more rest

section Next

variable {before middle after more rest : List Token}

theorem nextKind_append (kind : Kind) (here : nextKind after ≠ kind)
    (there : nextKind more ≠ kind) : nextKind (after ++ more) ≠ kind := by
  cases after with
  | nil =>
      exact there
  | cons token later =>
      exact here

theorem Leaves.no_else
    (leaves : Leaves after more rest) (apart : Apart more)
    (absent : nextKind after ≠ .kwElse) : nextKind rest ≠ .kwElse := by
  cases leaves with
  | all =>
      exact nextKind_append .kwElse absent apart.no_else
  | semicolon _ isSemicolon starts =>
      exact apart.no_else_behind _ _ starts isSemicolon

theorem Leaves.eq_of_cons
    {token : Token} (leaves : Leaves (token :: after) more rest) :
    rest = token :: (after ++ more) := by
  cases leaves with
  | all =>
      rfl
  | semicolon empty =>
      cases empty

/-- A semicolon is taken if it comes next, also from the text behind. -/
theorem SemicolonDerives.append
    (derived : SemicolonDerives middle after) (more : List Token) :
    ∃ rest,
      Leaves after more rest ∧ SemicolonDerives (middle ++ more) rest := by
  cases derived with
  | taken _ isSemicolon =>
      exact ⟨_, .all, .taken _ isSemicolon⟩
  | absent foreign =>
      cases middle with
      | cons token later =>
          exact ⟨_, .all, .absent foreign⟩
      | nil =>
          by_cases next : nextKind more = .semicolon
          · cases more with
            | nil =>
                cases next
            | cons token later =>
                exact ⟨later, .semicolon rfl next rfl, .taken _ next⟩
          · exact ⟨_, .all, .absent next⟩

theorem ValueDerives.append
    {tree : Expr} (derived : ValueDerives tree before after)
    (apart : Apart more) :
    ValueDerives tree (before ++ more) (after ++ more) := by
  refine ⟨derived.1.append more, ?_⟩
  cases after with
  | nil =>
      exact apart.no_operator
  | cons token later =>
      exact derived.2

/-- Statements start with nothing that goes on with what stands before them. -/
theorem StmtsDerive.foreign
    {trees : List Stmt} (derived : StmtsDerive trees more []) :
    nextKind more ≠ .kwElse ∧ nextKind more ∉ binaryLevels.flatten := by
  have outside :
      ∀ kind ∈ Kind.kwElse :: binaryLevels.flatten,
        startsStatement kind = false ∧ kind ≠ .eof := by
    decide
  rw [← not_or, ← List.mem_cons]
  intro member
  cases derived with
  | nil =>
      exact (outside _ member).2 rfl
  | cons first _ =>
      have starts := first.starts
      rw [(outside _ member).1] at starts
      cases starts

/-- A statement that starts with a semicolon is empty. -/
theorem StmtDerives.eq_empty
    {tree : Stmt} {token : Token}
    (derived : StmtDerives tree (token :: rest) after)
    (isSemicolon : token.kind = .semicolon) :
    tree = .empty ∧ after = rest := by
  cases derived with
  | empty =>
      exact ⟨rfl, rfl⟩
  | assign | store | ifThen | ifElse | loop | ret | retValue | leave | again
  | raw | block =>
      simp_all

/-- Other statements can stand behind statements. -/
theorem StmtsDerive.apart
    {trees : List Stmt} (derived : StmtsDerive trees more []) : Apart more := by
  refine ⟨derived.foreign.2, derived.foreign.1, ?_⟩
  rintro token rest rfl isSemicolon
  cases derived with
  | cons first others =>
      obtain ⟨_, rfl⟩ := first.eq_empty isSemicolon
      exact others.foreign.1

end Next

/-! ## Statements -/

/-- The tokens of a statement outside of functions are also derived with others
behind them. -/
def StmtExtends
    (more : List Token) (tree : Stmt) (before after : List Token) : Prop :=
  ∀ inLoop, tree.Placed false inLoop →
    ∃ rest, Leaves after more rest ∧ StmtDerives tree (before ++ more) rest

def StmtsExtend
    (more : List Token) (trees : List Stmt) (before after : List Token) :
    Prop :=
  ∀ inLoop, Stmt.PlacedAll false inLoop trees →
    ∃ rest, Leaves after more rest ∧ StmtsDerive trees (before ++ more) rest

section Extension

variable {more : List Token} {word opening close between : Token}
  {before middle rest behind later after : List Token}

theorem stmtExtends_of_semicolon
    {tree : Stmt} (semicolon : SemicolonDerives middle after)
    (derives : ∀ left, SemicolonDerives (middle ++ more) left →
      StmtDerives tree (before ++ more) left) :
    StmtExtends more tree before after := by
  intro _ _
  obtain ⟨left, leaves, taken⟩ := semicolon.append more
  exact ⟨left, leaves, derives left taken⟩

theorem stmtExtends_ifThen
    {condition : Expr} {thenBranch : Stmt} (apart : Apart more)
    (isIf : word.kind = .kwIf) (opens : opening.kind = .lparen)
    (derived : LevelDerives binaryLevels condition rest (close :: behind))
    (closes : close.kind = .rparen)
    (thenExtends : StmtExtends more thenBranch behind after)
    (noElse : nextKind after ≠ .kwElse) :
    StmtExtends more (.ifThen condition thenBranch) (word :: opening :: rest)
      after := by
  intro inLoop placed
  rw [Stmt.Placed] at placed
  obtain ⟨left, leaves, branch⟩ := thenExtends inLoop placed
  exact
    ⟨left, leaves,
      .ifThen isIf opens (derived.append more) closes branch
        (leaves.no_else apart noElse)⟩

theorem stmtExtends_ifElse
    {condition : Expr} {thenBranch elseBranch : Stmt}
    (isIf : word.kind = .kwIf) (opens : opening.kind = .lparen)
    (derived : LevelDerives binaryLevels condition rest (close :: behind))
    (closes : close.kind = .rparen)
    (thenExtends : StmtExtends more thenBranch behind (between :: later))
    (isElse : between.kind = .kwElse)
    (elseExtends : StmtExtends more elseBranch later after) :
    StmtExtends more (.ifElse condition thenBranch elseBranch)
      (word :: opening :: rest) after := by
  intro inLoop placed
  rw [Stmt.Placed] at placed
  obtain ⟨_, leaves, branch⟩ := thenExtends inLoop placed.1
  obtain ⟨left, otherLeaves, other⟩ := elseExtends inLoop placed.2
  cases leaves.eq_of_cons
  exact
    ⟨left, otherLeaves,
      .ifElse isIf opens (derived.append more) closes branch isElse other⟩

theorem stmtExtends_loop
    {condition : Expr} {body : Stmt} (isWhile : word.kind = .kwWhile)
    (opens : opening.kind = .lparen)
    (derived : LevelDerives binaryLevels condition rest (close :: behind))
    (closes : close.kind = .rparen)
    (bodyExtends : StmtExtends more body behind after) :
    StmtExtends more (.loop condition body) (word :: opening :: rest)
      after := by
  intro _ placed
  rw [Stmt.Placed] at placed
  obtain ⟨left, leaves, repeated⟩ := bodyExtends true placed
  exact
    ⟨left, leaves,
      .loop isWhile opens (derived.append more) closes repeated⟩

theorem stmtExtends_ret (value : Option Expr) :
    StmtExtends more (.ret value) before after := by
  intro _ placed
  rw [Stmt.Placed] at placed
  cases placed

theorem stmtExtends_raw (isRaw : word.kind = .raw) :
    StmtExtends more (.raw word.payload) (word :: after) after :=
  fun _ _ => ⟨_, .all, .raw _ isRaw⟩

theorem stmtExtends_block
    {body : List Stmt} (opens : opening.kind = .lbrace)
    (bodyExtends : StmtsExtend more body rest (close :: after))
    (closes : close.kind = .rbrace) :
    StmtExtends more (.block body) (opening :: rest) after := by
  intro inLoop placed
  rw [Stmt.Placed] at placed
  obtain ⟨_, leaves, inner⟩ := bodyExtends inLoop placed
  cases leaves.eq_of_cons
  exact ⟨_, .all, .block opens inner closes⟩

theorem stmtExtends_empty (isSemicolon : word.kind = .semicolon) :
    StmtExtends more .empty (word :: after) after :=
  fun _ _ => ⟨_, .all, .empty _ isSemicolon⟩

theorem stmtsExtend_cons
    {first : Stmt} {others : List Stmt}
    (firstExtends : StmtExtends more first before middle)
    (othersDerived : StmtsDerive others middle after)
    (othersExtend : StmtsExtend more others middle after) :
    StmtsExtend more (first :: others) before after := by
  intro inLoop placed
  rw [Stmt.PlacedAll] at placed
  obtain ⟨left, leaves, derived⟩ := firstExtends inLoop placed.1
  cases leaves with
  | all =>
      obtain ⟨left, othersLeave, rest⟩ := othersExtend inLoop placed.2
      exact ⟨left, othersLeave, .cons derived rest⟩
  | semicolon empty isSemicolon starts =>
      -- nothing was left behind the first statement, so it is the last one
      subst empty
      cases othersDerived with
      | nil =>
          exact ⟨left, .semicolon rfl isSemicolon starts, .cons derived (.nil _)⟩
      | cons next _ =>
          cases next.starts

end Extension

mutual

theorem stmtExtends_of_derives
    {more : List Token} (apart : Apart more) {tree : Stmt}
    {before after : List Token} :
    StmtDerives tree before after → StmtExtends more tree before after
  | .assign identifier isSign value semicolon =>
      stmtExtends_of_semicolon semicolon fun _ taken =>
        .assign identifier isSign (value.append apart) taken
  | .store identifier opens index closes isSign value semicolon =>
      stmtExtends_of_semicolon semicolon fun _ taken =>
        .store identifier opens (index.append more) closes isSign
          (value.append apart) taken
  | .ifThen isIf opens condition closes thenBranch noElse =>
      stmtExtends_ifThen apart isIf opens condition closes
        (stmtExtends_of_derives apart thenBranch) noElse
  | .ifElse isIf opens condition closes thenBranch isElse elseBranch =>
      stmtExtends_ifElse isIf opens condition closes
        (stmtExtends_of_derives apart thenBranch) isElse
        (stmtExtends_of_derives apart elseBranch)
  | .loop isWhile opens condition closes body =>
      stmtExtends_loop isWhile opens condition closes
        (stmtExtends_of_derives apart body)
  | .ret _ _ _ =>
      stmtExtends_ret none
  | .retValue _ _ _ _ =>
      stmtExtends_ret _
  | .leave isBreak semicolon =>
      stmtExtends_of_semicolon semicolon fun _ taken => .leave isBreak taken
  | .again isContinue semicolon =>
      stmtExtends_of_semicolon semicolon fun _ taken => .again isContinue taken
  | .raw _ isRaw =>
      stmtExtends_raw isRaw
  | .block opens body closes =>
      stmtExtends_block opens (stmtsExtend_of_derive apart body) closes
  | .empty _ isSemicolon =>
      stmtExtends_empty isSemicolon

theorem stmtsExtend_of_derive
    {more : List Token} (apart : Apart more) {trees : List Stmt}
    {before after : List Token} :
    StmtsDerive trees before after → StmtsExtend more trees before after
  | .nil _ =>
      fun _ _ => ⟨_, .all, .nil _⟩
  | .cons first others =>
      stmtsExtend_cons (stmtExtends_of_derives apart first) others
        (stmtsExtend_of_derive apart others)

end

theorem StmtsDerive.concat
    {first second : List Stmt} {before middle after : List Token}
    (early : StmtsDerive first before middle)
    (late : StmtsDerive second middle after) :
    StmtsDerive (first ++ second) before after := by
  induction first generalizing before with
  | nil =>
      cases early
      exact late
  | cons head tail inductionHypothesis =>
      cases early with
      | cons headDerived tailDerived =>
          exact .cons headDerived (inductionHypothesis tailDerived)

/-- Statements behind others are derived as they are, but for an empty statement in
front of them whose semicolon ends the others. -/
theorem StmtsDerive.append
    {first second : List Stmt} {before more : List Token}
    (early : StmtsDerive first before [])
    (placed : Stmt.PlacedAll false false first)
    (late : StmtsDerive second more []) :
    ∃ rest,
      (second = rest ∨ second = .empty :: rest) ∧
        StmtsDerive (first ++ rest) (before ++ more) [] := by
  obtain ⟨_, leaves, extended⟩ :=
    stmtsExtend_of_derive late.apart early false placed
  cases leaves with
  | all =>
      exact ⟨second, Or.inl rfl, extended.concat late⟩
  | semicolon _ isSemicolon starts =>
      subst starts
      cases late with
      | @cons head tail _ _ _ headDerived tailDerived =>
          obtain ⟨rfl, rfl⟩ := headDerived.eq_empty isSemicolon
          exact ⟨tail, Or.inr rfl, extended.concat tailDerived⟩

/-! ## Labels -/

def Surroundings.relabel
    (rename : Label → Label) (around : Surroundings) : Surroundings :=
  { around with
    loop := around.loop.map fun labels =>
      ⟨rename labels.home, rename labels.exit⟩ }

namespace Stmt

open FlatCode.Stmt (relabel relabelAll)

variable {builder : Builder} (amount : Nat)

mutual

/-- A statement that is built with more labels in use has its loops at higher
labels. -/
theorem build_raise :
    ∀ (tree : Stmt) {around : Surroundings} {created : Nat}
      {result : Numbered FlatCode.Stmt},
      tree.build builder around created = some result →
        tree.build builder (around.relabel (Label.raise amount))
            (created + amount) =
          some (result.1.relabel (Label.raise amount), result.2 + amount)
  | .assign _ _, _, _, _, builds => by
      rw [build] at builds
      obtain ⟨built, valueBuilds, builds⟩ := Option.bind_eq_some_iff.mp builds
      cases builds
      simp [Surroundings.relabel, valueBuilds, relabel]
  | .store _ _ _, _, _, _, builds => by
      rw [build] at builds
      obtain ⟨place, placeBuilds, builds⟩ := Option.bind_eq_some_iff.mp builds
      obtain ⟨built, valueBuilds, builds⟩ := Option.bind_eq_some_iff.mp builds
      cases builds
      simp [Surroundings.relabel, placeBuilds, valueBuilds, relabel]
  | .ifThen _ thenBranch, _, _, _, builds => by
      rw [build] at builds
      obtain ⟨test, testBuilds, builds⟩ := Option.bind_eq_some_iff.mp builds
      obtain ⟨first, firstBuilds, builds⟩ := Option.bind_eq_some_iff.mp builds
      cases builds
      have branch := build_raise thenBranch firstBuilds
      simp only [Surroundings.relabel] at branch
      simp [Surroundings.relabel, testBuilds, branch, relabel]
  | .ifElse _ thenBranch elseBranch, _, _, _, builds => by
      rw [build] at builds
      obtain ⟨test, testBuilds, builds⟩ := Option.bind_eq_some_iff.mp builds
      obtain ⟨first, firstBuilds, builds⟩ := Option.bind_eq_some_iff.mp builds
      obtain ⟨second, secondBuilds, builds⟩ :=
        Option.bind_eq_some_iff.mp builds
      cases builds
      have branch := build_raise thenBranch firstBuilds
      have other := build_raise elseBranch secondBuilds
      simp only [Surroundings.relabel] at branch other
      simp [Surroundings.relabel, testBuilds, branch, other, relabel]
  | .loop _ body, around, created, _, builds => by
      rw [build] at builds
      obtain ⟨test, testBuilds, builds⟩ := Option.bind_eq_some_iff.mp builds
      obtain ⟨repeated, bodyBuilds, builds⟩ := Option.bind_eq_some_iff.mp builds
      cases builds
      have inner := build_raise body bodyBuilds
      simp only [Surroundings.relabel, Option.map_some, Label.raise,
        Nat.add_right_comm _ _ amount] at inner
      simp [testBuilds, Surroundings.relabel, inner, relabel, Label.raise,
        Nat.add_right_comm _ _ amount]
  | .ret none, _, _, _, builds => by
      rw [build] at builds
      obtain ⟨function, inside, builds⟩ := Option.bind_eq_some_iff.mp builds
      cases builds
      simp [Surroundings.relabel, inside, relabel]
  | .ret (some _), _, _, _, builds => by
      rw [build] at builds
      obtain ⟨function, inside, builds⟩ := Option.bind_eq_some_iff.mp builds
      obtain ⟨built, valueBuilds, builds⟩ := Option.bind_eq_some_iff.mp builds
      cases builds
      simp [Surroundings.relabel, inside, valueBuilds, relabel]
  | .leave, _, _, _, builds => by
      rw [build] at builds
      obtain ⟨labels, inside, builds⟩ := Option.bind_eq_some_iff.mp builds
      cases builds
      simp [Surroundings.relabel, inside, relabel]
  | .again, _, _, _, builds => by
      rw [build] at builds
      obtain ⟨labels, inside, builds⟩ := Option.bind_eq_some_iff.mp builds
      cases builds
      simp [Surroundings.relabel, inside, relabel]
  | .raw _, _, _, _, builds => by
      rw [build] at builds
      cases builds
      simp [relabel]
  | .block body, _, _, _, builds => by
      rw [build] at builds
      obtain ⟨built, bodyBuilds, builds⟩ := Option.bind_eq_some_iff.mp builds
      cases builds
      simp [buildAll_raise body bodyBuilds, relabel]
  | .empty, _, _, _, builds => by
      rw [build] at builds
      cases builds
      simp [relabel]

theorem buildAll_raise :
    ∀ (trees : List Stmt) {around : Surroundings} {created : Nat}
      {result : Numbered (List FlatCode.Stmt)},
      buildAll builder around created trees = some result →
        buildAll builder (around.relabel (Label.raise amount))
            (created + amount) trees =
          some (relabelAll (Label.raise amount) result.1, result.2 + amount)
  | [], _, _, _, builds => by
      rw [buildAll] at builds
      cases builds
      simp [relabelAll]
  | first :: others, _, _, _, builds => by
      rw [buildAll] at builds
      obtain ⟨built, firstBuilds, builds⟩ := Option.bind_eq_some_iff.mp builds
      obtain ⟨rest, othersBuild, builds⟩ := Option.bind_eq_some_iff.mp builds
      cases builds
      simp [build_raise first firstBuilds, buildAll_raise others othersBuild,
        relabelAll]

end

theorem buildAll_append
    {around : Surroundings} {created : Nat} {first second : List Stmt}
    {early late : Numbered (List FlatCode.Stmt)}
    (firstBuilds : buildAll builder around created first = some early)
    (secondBuilds : buildAll builder around early.2 second = some late) :
    buildAll builder around created (first ++ second) =
      some (early.1 ++ late.1, late.2) := by
  induction first generalizing created early with
  | nil =>
      rw [buildAll] at firstBuilds
      cases firstBuilds
      exact secondBuilds
  | cons head tail inductionHypothesis =>
      rw [buildAll] at firstBuilds
      obtain ⟨built, headBuilds, firstBuilds⟩ :=
        Option.bind_eq_some_iff.mp firstBuilds
      obtain ⟨rest, tailBuilds, firstBuilds⟩ :=
        Option.bind_eq_some_iff.mp firstBuilds
      cases firstBuilds
      simp [headBuilds, inductionHypothesis tailBuilds secondBuilds]

end Stmt

/-! ## Programs without functions -/

section Plain

variable {tokens : List Token} {last : Token}

/-- A program without functions is derived and built from its statements alone. -/
theorem main_of_ofStream
    {stream : Token.Stream} {program : FlatCode.Program}
    (isLast : last.kind = .eof)
    (read : FlatCode.Program.ofStream stream = .ok program)
    (plain : program.functions = []) :
    ∃ trees,
      StmtsDerive trees stream.tokens [] ∧
        Stmt.PlacedAll false false trees ∧
        Stmt.buildAll .reading ⟨[], none, none⟩ 0 trees =
          some (program.main, program.labels.created) := by
  obtain ⟨⟨written, trees⟩, derived, builds⟩ := derives_of_ofStream isLast read
  have valid := (programBuilds_iff_valid derived).mp ⟨program, builds⟩
  obtain ⟨all, final, middle, same, _, functionsDerived, mainDerived⟩ := derived
  obtain ⟨rfl, _⟩ := List.append_inj' same rfl
  obtain ⟨functions, functionsBuild, builds⟩ :=
    Option.bind_eq_some_iff.mp builds
  obtain ⟨main, mainBuilds, builds⟩ := Option.bind_eq_some_iff.mp builds
  cases builds
  have nothing : SameSignatures [] [] := rfl
  have signatures := sameSignatures_of_buildAll nothing functionsBuild
  have noFunctions : functions.1 = [] := plain
  rw [List.nil_append, SameSignatures, noFunctions] at signatures
  obtain rfl : written = [] := List.map_eq_nil_iff.mp signatures.symm
  cases functionsDerived
  cases functionsBuild
  rw [LabelTable.created_createMany_empty]
  exact ⟨trees, mainDerived, valid.main_placed, mainBuilds⟩

/-- Derived statements that can be built are read as a program without functions. -/
theorem ofStream_of_main
    {ending : Token.Ending} {trees : List Stmt}
    {main : Numbered (List FlatCode.Stmt)} (ended : ending = .ok last)
    (isLast : last.kind = .eof) (derived : StmtsDerive trees tokens [])
    (builds : Stmt.buildAll .reading ⟨[], none, none⟩ 0 trees = some main) :
    FlatCode.Program.ofStream ⟨tokens, ending⟩ =
      .ok ⟨[], main.1, LabelTable.empty.createMany main.2⟩ := by
  have whole : Program.Derives ⟨[], trees⟩ (tokens ++ [last]) :=
    ⟨tokens, last, tokens, rfl, isLast, .nil _, derived⟩
  apply ofStream_of_derives ended isLast whole
  simp [Program.build, Function.buildAll, builds]

end Plain

end FlatCode.Surface

namespace FlatCode.Program

/-- Behind the tokens of one program, those of another are read as the statements of
the other with higher labels.  The semicolon of an empty statement in front of them
may end the first program. -/
theorem ofStream_append
    {first second : Token.Stream} {firstProgram secondProgram : Program}
    {last : Token} (isLast : last.kind = .eof)
    (firstRead : ofStream first = .ok firstProgram)
    (firstPlain : firstProgram.functions = [])
    (ended : second.ending = .ok last)
    (secondRead : ofStream second = .ok secondProgram)
    (secondPlain : secondProgram.functions = []) :
    ∃ rest,
      (secondProgram.main = rest ∨ secondProgram.main = .empty :: rest) ∧
        ofStream ⟨first.tokens ++ second.tokens, second.ending⟩ =
          .ok
            ⟨[],
              firstProgram.main ++
                Stmt.relabelAll (Label.raise firstProgram.labels.created) rest,
              LabelTable.empty.createMany
                (firstProgram.labels.created +
                  secondProgram.labels.created)⟩ := by
  obtain ⟨firstTrees, firstDerived, firstPlaced, firstBuilds⟩ :=
    Surface.main_of_ofStream isLast firstRead firstPlain
  obtain ⟨secondTrees, secondDerived, _, secondBuilds⟩ :=
    Surface.main_of_ofStream isLast secondRead secondPlain
  obtain ⟨restTrees, shape, derived⟩ :=
    firstDerived.append firstPlaced secondDerived
  obtain ⟨rest, restShape, restBuilds⟩ :
      ∃ rest,
        (secondProgram.main = rest ∨ secondProgram.main = .empty :: rest) ∧
          Surface.Stmt.buildAll .reading ⟨[], none, none⟩ 0 restTrees =
            some (rest, secondProgram.labels.created) := by
    rcases shape with rfl | rfl
    · exact ⟨_, Or.inl rfl, secondBuilds⟩
    · rw [Surface.Stmt.buildAll, Surface.Stmt.build] at secondBuilds
      obtain ⟨_, emptyBuilds, others⟩ := Option.bind_eq_some_iff.mp secondBuilds
      obtain ⟨rest, restBuilds, same⟩ := Option.bind_eq_some_iff.mp others
      cases emptyBuilds
      obtain ⟨main, labels⟩ := Prod.mk.inj (Option.some.inj same)
      exact ⟨rest.1, Or.inr main.symm, by rw [restBuilds, ← labels]⟩
  have raised :=
    Surface.Stmt.buildAll_raise firstProgram.labels.created restTrees restBuilds
  rw [Nat.zero_add, Nat.add_comm] at raised
  exact
    ⟨rest, restShape,
      Surface.ofStream_of_main ended isLast derived
        (Surface.Stmt.buildAll_append firstBuilds raised)⟩

end FlatCode.Program
