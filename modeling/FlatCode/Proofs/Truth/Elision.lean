import FlatCode.Proofs.Grammar.Build
import FlatCode.Proofs.Truth.Value
import Mathlib.Data.List.Forall2

/-!
# Expressions with and without superfluous tests for zero

An expression whose value is read as a truth value is compared with zero only where
that is needed: not if its value is known to be zero or one, and not as long as only
a condition or another truth value is made of it.  The eager builder knows no such
exceptions.  It compares every result of `||`, `&&`, a comparison, `!` and `!!` with
zero at once, and it keeps every builtin.

Both builders give the same values wherever a value is stored, passed on or computed
with.  The invariant is `Expr.Agrees`: a loose expression has a truth value as its eager
counterpart, which tells whether the loose one is zero; every other expression has
the same value as its counterpart.
-/

namespace FlatCode

open Token (Kind)

/-! ## The eager builder -/

def truthSigns : List Kind :=
  [.logicalOr, .logicalAnd, .eq, .ne, .lt, .gt, .le, .ge]

/-- The operators of a level give truth values. -/
def Level.decides (level : Level) : Bool :=
  level.operators.any fun entry => entry.1 ∈ truthSigns

namespace Surface.Builder

def operation (operator : Operator) (lhs rhs : FlatCode.Expr) :
    FlatCode.Expr :=
  .binary .plain operator lhs rhs

def test (expr : FlatCode.Expr) : FlatCode.Expr :=
  operation .notEqual expr .zero

/-- The builder that tests every truth value at once and keeps every builtin. -/
def eager : Builder where
  combine level operator lhs rhs :=
    if level.decides then
      test (operation operator lhs rhs)
    else
      operation operator lhs rhs
  unary
    | .negate, operand => operation .sub .zero operand
    | .flipBits, operand => operation .not operand .zero
    | .isFalse, operand => test (operation .equal operand .zero)
    | .isTrue, operand => test (operation .notEqual operand .zero)
  call?
    | .function callee, args =>
        if args.length = callee.params.length then
          some (.ofCall callee args)
        else
          none
    | .builtinOne operator, [argument] =>
        some (operation operator argument .zero)
    | .builtinTwo operator, [first, second] =>
        some (operation operator first second)
    | _, _ => none

end Surface.Builder

open Surface.Builder (operation test)

/-! ## Agreement of expressions -/

section Agreement

variable (environment : Environment)

/-- Two lists of expressions have the same values one by one. -/
def SameValues (left right : List Expr) : Prop :=
  List.Forall₂
    (fun expr other => expr.eval environment = other.eval environment)
    left right

/-- Two lists of expressions are zero in the same places. -/
def SameZeros (left right : List Expr) : Prop :=
  List.Forall₂
    (fun expr other =>
      expr.eval environment = 0 ↔ other.eval environment = 0)
    left right

/-- An expression and its eager counterpart. -/
structure Expr.Agrees (expr eager : Expr) : Prop where
  same :
    expr.truth.loose = false →
      expr.eval environment = eager.eval environment
  tested :
    expr.truth.loose = true →
      eager.eval environment = truthValue (expr.eval environment ≠ 0)
  strict : expr.truth.strict = true → IsTruth (expr.eval environment)
  /-- The counterpart is never normalized. -/
  settled : eager.truth.loose = false
  passed : SameValues environment expr.passed eager.passed

variable {environment} {expr eager lhs rhs lhsEager rhsEager : Expr}

theorem Expr.normalize_of_not_loose (settled : expr.truth.loose = false) :
    expr.normalize = expr := by
  rw [normalize, if_neg]
  rw [settled]
  exact Bool.false_ne_true

theorem Expr.Agrees.zero_iff (agrees : Expr.Agrees environment expr eager) :
    expr.eval environment = 0 ↔ eager.eval environment = 0 := by
  cases loose : expr.truth.loose with
  | false =>
      rw [agrees.same loose]
  | true =>
      rw [agrees.tested loose, truthValue_eq_zero_iff, not_not]

/-- A normalized expression has the value of the eager counterpart. -/
theorem Expr.Agrees.normalize (agrees : Expr.Agrees environment expr eager) :
    Expr.Agrees environment expr.normalize eager := by
  cases loose : expr.truth.loose with
  | false =>
      rw [Expr.normalize_of_not_loose loose]
      exact agrees
  | true =>
      have value :
          expr.normalize.eval environment = eager.eval environment := by
        rw [agrees.tested loose, Expr.normalize, if_pos loose, Expr.eval,
          Expr.eval_zero, Environment.operate]
      refine ⟨fun _ => value, ?_, ?_, agrees.settled, ?_⟩
      · intro stillLoose
        rw [Expr.normalize, if_pos loose] at stillLoose
        cases stillLoose
      · intro _
        rw [value, agrees.tested loose]
        exact isTruth_truthValue _
      · rw [Expr.normalize, if_pos loose, Expr.passed, Expr.passed_zero,
          List.append_nil]
        exact agrees.passed

theorem Expr.loose_normalize (expr : Expr) :
    expr.normalize.truth.loose = false := by
  cases loose : expr.truth.loose with
  | false =>
      rw [normalize_of_not_loose loose]
      exact loose
  | true =>
      rw [normalize, if_pos loose]
      rfl

theorem Expr.Agrees.eval_normalize (agrees : Expr.Agrees environment expr eager) :
    expr.normalize.eval environment = eager.eval environment :=
  agrees.normalize.same expr.loose_normalize

theorem agrees_ofText (text : String) :
    Expr.Agrees environment (.ofText text) (.ofText text) :=
  ⟨fun _ => rfl, fun loose => (nomatch loose), fun strict => (nomatch strict),
    rfl, by simp [SameValues, Expr.ofText]⟩

theorem agrees_zero : Expr.Agrees environment .zero .zero :=
  ⟨fun _ => rfl, fun loose => (nomatch loose),
    fun _ => Or.inl (Expr.eval_zero environment), rfl, by simp [SameValues]⟩

/-! ## Operations -/

/-- What is noted on the strictness of the results of an operator is true. -/
def Environment.Honest
    (environment : Environment) (operator : Operator) : Option Bool → Prop
  | some true =>
      ∀ lhs rhs, IsTruth (environment.operate operator lhs rhs)
  | some false => True
  | none =>
      ∀ lhs rhs, IsTruth lhs → IsTruth rhs →
        IsTruth (environment.operate operator lhs rhs)

theorem honest_of_operator
    {operator : Operator} {strict : Option Bool}
    (honest : operator.Honest strict) :
    environment.Honest operator strict := by
  match strict, honest with
  | some true, honest =>
      intro lhs rhs
      exact honest lhs rhs _ (environment.gives_operate operator lhs rhs)
  | some false, _ =>
      trivial
  | none, honest =>
      intro lhs rhs lhsTruth rhsTruth
      exact
        honest lhs rhs _ lhsTruth rhsTruth
          (environment.gives_operate operator lhs rhs)

/-- A strict operation has a truth value. -/
theorem isTruth_apply
    {operator : Operator} {strict : Option Bool}
    (honest : environment.Honest operator strict)
    (lhsTruth : lhs.truth.strict = true → IsTruth (lhs.eval environment))
    (rhsTruth : rhs.truth.strict = true → IsTruth (rhs.eval environment))
    (isStrict : (Expr.apply operator strict lhs rhs).truth.strict = true) :
    IsTruth ((Expr.apply operator strict lhs rhs).eval environment) := by
  rw [Expr.apply, Expr.eval]
  match strict, honest, isStrict with
  | some true, honest, _ =>
      exact honest _ _
  | none, honest, isStrict =>
      have both : lhs.truth.strict && rhs.truth.strict := isStrict
      rw [Bool.and_eq_true] at both
      exact honest _ _ (lhsTruth both.1) (rhsTruth both.2)

theorem sameValues_passed_operation
    {operator eagerOperator : Operator} {strict : Option Bool}
    (lhsPassed : SameValues environment lhs.passed lhsEager.passed)
    (rhsPassed : SameValues environment rhs.passed rhsEager.passed) :
    SameValues environment (Expr.apply operator strict lhs rhs).passed
      (operation eagerOperator lhsEager rhsEager).passed := by
  rw [Expr.apply, operation, Expr.passed, Expr.passed]
  exact List.rel_append lhsPassed rhsPassed

/-- An operation on normalized operands agrees with the eager one. -/
theorem Expr.Agrees.combine
    {operator : Operator} {strict : Option Bool}
    (lhsAgrees : Expr.Agrees environment lhs lhsEager)
    (rhsAgrees : Expr.Agrees environment rhs rhsEager)
    (honest : environment.Honest operator strict) :
    Expr.Agrees environment (.combine operator strict true lhs rhs)
      (operation operator lhsEager rhsEager) := by
  rw [Expr.combine, if_pos rfl]
  refine ⟨?_, fun loose => (nomatch loose), ?_, rfl, ?_⟩
  · intro _
    rw [Expr.apply, operation, Expr.eval, Expr.eval, lhsAgrees.eval_normalize,
      rhsAgrees.eval_normalize]
  · exact
      isTruth_apply honest lhsAgrees.normalize.strict
        rhsAgrees.normalize.strict
  · exact
      sameValues_passed_operation lhsAgrees.normalize.passed
        rhsAgrees.normalize.passed

/-- A result that is read as a truth value agrees with the test of a counterpart
that is zero in the same environments. -/
theorem agrees_wantTruth
    (zeros : expr.eval environment = 0 ↔ eager.eval environment = 0)
    (strict : expr.truth.strict = true → IsTruth (expr.eval environment))
    (passed : SameValues environment expr.passed eager.passed) :
    Expr.Agrees environment expr.wantTruth (test eager) := by
  have value :
      (test eager).eval environment =
        truthValue (expr.eval environment ≠ 0) := by
    rw [test, operation, Expr.eval, Expr.eval_zero, Environment.operate]
    simp only [ne_eq, zeros]
  have notes : expr.wantTruth.truth = ⟨true, expr.truth.strict⟩ := by
    cases expr <;> rfl
  have unchanged : expr.wantTruth.eval environment = expr.eval environment :=
    Expr.eval_withTruth environment _ expr
  refine ⟨?_, ?_, ?_, rfl, ?_⟩
  · intro settled
    have isStrict : expr.truth.strict = true := by
      rw [notes] at settled
      simpa [Truth.loose] using settled
    rw [unchanged, value, (strict isStrict).truthValue_ne_zero]
  · intro _
    rw [unchanged]
    exact value
  · intro isStrict
    rw [notes] at isStrict
    rw [unchanged]
    exact strict isStrict
  · rw [Expr.wantTruth, Expr.passed_withTruth, test, operation, Expr.passed,
      Expr.passed_zero, List.append_nil]
    exact passed

/-! ## Levels, unary operators and calls -/

theorem honest_of_mem
    {level : Level} {entry : Kind × Operator} (inTable : level ∈ Level.table)
    (member : entry ∈ level.operators) :
    environment.Honest entry.2 level.strict :=
  honest_of_operator (Operator.honest_of_mem inTable member)

/-- An operation of a level agrees with the eager one. -/
theorem Expr.Agrees.level
    {level : Level} {entry : Kind × Operator} (inTable : level ∈ Level.table)
    (member : entry ∈ level.operators)
    (lhsAgrees : Expr.Agrees environment lhs lhsEager)
    (rhsAgrees : Expr.Agrees environment rhs rhsEager) :
    Expr.Agrees environment (level.combine entry.2 lhs rhs)
      (Surface.Builder.eager.combine level entry.2 lhsEager rhsEager) := by
  have honest : environment.Honest entry.2 level.strict :=
    honest_of_mem inTable member
  have table :
      ∀ level ∈ Level.table,
        level.decides = level.wantsTruth ∧
          (level.normalizes = false →
            level.wantsTruth = true ∧
              ∀ entry ∈ level.operators,
                entry.2 ∈ [Operator.or, .logicalAnd]) := by
    decide
  obtain ⟨decides, joins⟩ := table level inTable
  simp only [Level.combine, Surface.Builder.eager, decides]
  cases normalizes : level.normalizes with
  | true =>
      have agrees := lhsAgrees.combine rhsAgrees honest
      split
      · exact agrees_wantTruth agrees.zero_iff agrees.strict agrees.passed
      · exact agrees
  | false =>
      -- The operands stay as they are, so only their zeros agree.
      obtain ⟨wantsTruth, joining⟩ := joins normalizes
      rw [if_pos wantsTruth, if_pos wantsTruth, Expr.combine,
        if_neg Bool.false_ne_true]
      apply agrees_wantTruth
      · rw [Expr.apply, operation, Expr.eval, Expr.eval]
        exact
          environment.operate_eq_zero_congr (joining entry member)
            lhsAgrees.zero_iff rhsAgrees.zero_iff
      · exact isTruth_apply honest lhsAgrees.strict rhsAgrees.strict
      · exact sameValues_passed_operation lhsAgrees.passed rhsAgrees.passed

/-- The test of an operand against zero agrees with the eager one, for equality and
for its opposite. -/
theorem Expr.Agrees.compareZero
    {operator : Operator} (compares : operator ∈ [Operator.equal, .notEqual])
    (agrees : Expr.Agrees environment expr eager) :
    Expr.Agrees environment
      (Expr.combine operator (some true) false expr .zero).wantTruth
      (test (operation operator eager .zero)) := by
  rw [Expr.combine, if_neg Bool.false_ne_true]
  simp only [List.mem_cons, List.not_mem_nil, or_false] at compares
  apply agrees_wantTruth
  · rw [Expr.apply, operation, Expr.eval, Expr.eval, Expr.eval_zero]
    rcases compares with rfl | rfl
    · simp only [Environment.operate, truthValue_eq_zero_iff, agrees.zero_iff]
    · simp only [Environment.operate, truthValue_eq_zero_iff, ne_eq,
        agrees.zero_iff]
  · intro _
    rw [Expr.apply, Expr.eval]
    rcases compares with rfl | rfl
    · exact isTruth_truthValue _
    · exact isTruth_truthValue _
  · exact sameValues_passed_operation agrees.passed agrees_zero.passed

theorem Expr.Agrees.unary
    (unary : Unary) (agrees : Expr.Agrees environment expr eager) :
    Expr.Agrees environment (unary.apply expr)
      (Surface.Builder.eager.unary unary eager) := by
  cases unary with
  | negate =>
      exact agrees_zero.combine agrees trivial
  | flipBits =>
      exact agrees.combine agrees_zero trivial
  | isFalse =>
      exact agrees.compareZero (by simp)
  | isTrue =>
      exact agrees.compareZero (by simp)

theorem Expr.Agrees.unaryAll
    (run : List Unary) (agrees : Expr.Agrees environment expr eager) :
    Expr.Agrees environment (Surface.Builder.reading.unaryAll run expr)
      (Surface.Builder.eager.unaryAll run eager) := by
  induction run generalizing expr eager with
  | nil =>
      exact agrees
  | cons unary others inductionHypothesis =>
      exact inductionHypothesis (agrees.unary unary)

theorem Expr.Agrees.load
    (cell : String) (agrees : Expr.Agrees environment expr eager) :
    Expr.Agrees environment (.ofLoad cell expr.normalize)
      (.ofLoad cell eager.normalize) := by
  rw [Expr.normalize_of_not_loose agrees.settled]
  refine
    ⟨?_, fun loose => (nomatch loose), fun strict => (nomatch strict), rfl, ?_⟩
  · intro _
    rw [Expr.ofLoad, Expr.ofLoad, Expr.eval, Expr.eval, agrees.eval_normalize]
  · rw [Expr.ofLoad, Expr.ofLoad, Expr.passed, Expr.passed]
    exact .cons agrees.eval_normalize agrees.normalize.passed

/-- A call of a function agrees with the eager one. -/
theorem agrees_ofCall
    (callee : Callee) {args eagerArgs : List Expr}
    (agree : List.Forall₂ (Expr.Agrees environment) args eagerArgs) :
    Expr.Agrees environment (.ofCall callee (args.map Expr.normalize))
      (.ofCall callee (eagerArgs.map Expr.normalize)) := by
  have values :
      SameValues environment (args.map Expr.normalize)
        (eagerArgs.map Expr.normalize) := by
    rw [SameValues, List.forall₂_map_left_iff, List.forall₂_map_right_iff]
    refine agree.imp ?_
    intro arg eagerArg agrees
    rw [Expr.normalize_of_not_loose agrees.settled]
    exact agrees.eval_normalize
  have inner :
      SameValues environment (Expr.passedAll (args.map Expr.normalize))
        (Expr.passedAll (eagerArgs.map Expr.normalize)) := by
    clear values
    induction agree with
    | nil =>
        simp [SameValues]
    | cons agrees _ inductionHypothesis =>
        rw [List.map_cons, List.map_cons, Expr.passedAll, Expr.passedAll,
          Expr.normalize_of_not_loose agrees.settled]
        exact List.rel_append agrees.normalize.passed inductionHypothesis
  refine
    ⟨?_, fun loose => (nomatch loose), fun strict => (nomatch strict), rfl, ?_⟩
  · intro _
    have equal :
        (args.map Expr.normalize).map (Expr.eval environment) =
          (eagerArgs.map Expr.normalize).map (Expr.eval environment) := by
      rw [← List.forall₂_eq_eq_eq, List.forall₂_map_left_iff,
        List.forall₂_map_right_iff]
      exact values
    rw [Expr.ofCall, Expr.ofCall, Expr.eval, Expr.eval, Expr.evalAll_eq_map,
      Expr.evalAll_eq_map, equal]
  · rw [Expr.ofCall, Expr.ofCall, Expr.passed, Expr.passed]
    exact List.rel_append values inner

/-- A builtin that leaves truth values as they are agrees with its argument. -/
theorem Expr.Agrees.keepsTruth
    {operator : Operator} (keeps : Callable.keepsTruth operator = true)
    (agrees : Expr.Agrees environment expr eager)
    (settled : expr.truth.loose = false)
    (strict : expr.truth.strict = true) :
    Expr.Agrees environment expr (operation operator eager .zero) := by
  have listed : operator ∈ [Operator.abs, .floor, .ceil, .sqrt] := by
    cases operator <;> first | decide | cases keeps
  have value :
      (operation operator eager .zero).eval environment =
        expr.eval environment := by
    have kept :=
      environment.keeps_truth operator listed _ (agrees.strict strict)
    rw [operation, Expr.eval, Expr.eval_zero, ← agrees.same settled]
    simp only [List.mem_cons, List.not_mem_nil, or_false] at listed
    rcases listed with rfl | rfl | rfl | rfl
    all_goals exact kept
  refine ⟨fun _ => value.symm, ?_, agrees.strict, rfl, ?_⟩
  · intro loose
    rw [settled] at loose
    cases loose
  · rw [operation, Expr.passed, Expr.passed_zero, List.append_nil]
    exact agrees.passed

theorem honest_strictness (operator : Operator) :
    environment.Honest operator (Callable.strictness operator) :=
  honest_of_operator operator.honest_strictness

end Agreement

/-! ## Two builds side by side -/

/-- Whatever the first build gives, the second one gives a counterpart of it. -/
def Mirrored
    {α β : Type} (related : α → β → Prop) (first : Option α)
    (second : Option β) : Prop :=
  ∀ built, first = some built →
    ∃ counterpart, second = some counterpart ∧ related built counterpart

namespace Mirrored

variable {α β γ δ ε : Type} {related : α → β → Prop} {outer : γ → δ → Prop}

theorem given
    {built : α} {counterpart : β} (holds : related built counterpart) :
    Mirrored related (some built) (some counterpart) := by
  rintro _ ⟨⟩
  exact ⟨counterpart, rfl, holds⟩

theorem bind
    {first : Option α} {second : Option β} {next : α → Option γ}
    {other : β → Option δ} (mirrored : Mirrored related first second)
    (later : ∀ built counterpart, related built counterpart →
      Mirrored outer (next built) (other counterpart)) :
    Mirrored outer (first >>= next) (second >>= other) := by
  intro result builds
  obtain ⟨built, firstBuilds, builds⟩ := Option.bind_eq_some_iff.mp builds
  obtain ⟨counterpart, secondBuilds, holds⟩ := mirrored built firstBuilds
  rw [secondBuilds]
  exact later built counterpart holds result builds

/-- A step that both builds do alike. -/
theorem bind_same
    {step : Option ε} {next : ε → Option γ} {other : ε → Option δ}
    (later : ∀ value, step = some value →
      Mirrored outer (next value) (other value)) :
    Mirrored outer (step >>= next) (step >>= other) := by
  intro result builds
  obtain ⟨value, found, builds⟩ := Option.bind_eq_some_iff.mp builds
  rw [found]
  exact later value found result builds

end Mirrored

/-! ## Derivations of expressions -/

/-- An expression and its eager counterpart agree in every environment. -/
def AlwaysAgrees (expr eager : Expr) : Prop :=
  ∀ environment, Expr.Agrees environment expr eager

/-- A builtin of one argument agrees with the eager one, also where it gives its
argument back. -/
theorem Expr.Agrees.builtinOne
    {environment : Environment} {operator : Operator}
    {argument eagerArgument built : Expr}
    (agrees : Expr.Agrees environment argument eagerArgument)
    (called :
      (Callable.builtinOne operator).call? [argument.normalize] = some built) :
    Expr.Agrees environment built (operation operator eagerArgument .zero) := by
  rw [Callable.call?] at called
  split at called
  · next elided =>
      cases called
      rw [Bool.and_eq_true] at elided
      exact
        agrees.normalize.keepsTruth elided.1 argument.loose_normalize elided.2
  · cases called
    exact agrees.normalize.combine agrees_zero (honest_strictness operator)

/-- A call that succeeds has an eager counterpart. -/
theorem mirrored_call?
    {callable : Callable} {args eagerArgs : List Expr}
    (agree : List.Forall₂ AlwaysAgrees args eagerArgs) :
    Mirrored AlwaysAgrees (callable.call? (args.map Expr.normalize))
      (Surface.Builder.eager.call? callable
        (eagerArgs.map Expr.normalize)) := by
  intro built called
  have fits : args.length = callable.arity := by
    have succeeds := Option.isSome_of_eq_some called
    rw [Callable.call?_isSome_iff, List.length_map] at succeeds
    exact succeeds
  cases callable with
  | function callee =>
      rw [Callable.call?, Option.ite_none_right_eq_some] at called
      cases called.2
      have eagerFits :
          (eagerArgs.map Expr.normalize).length = callee.params.length := by
        rw [List.length_map, ← agree.length_eq]
        exact fits
      refine ⟨.ofCall callee (eagerArgs.map Expr.normalize), ?_, ?_⟩
      · simp only [Surface.Builder.eager, if_pos eagerFits]
      · intro environment
        apply agrees_ofCall callee
        exact agree.imp fun _ _ agrees => agrees environment
  | builtinOne operator =>
      obtain ⟨argument, rfl⟩ := List.length_eq_one_iff.mp fits
      obtain ⟨eagerArgument, _, agrees, none, rfl⟩ :=
        List.forall₂_cons_left_iff.mp agree
      obtain rfl := List.forall₂_nil_left_iff.mp none
      refine ⟨operation operator eagerArgument.normalize .zero, rfl, ?_⟩
      intro environment
      rw [Expr.normalize_of_not_loose (agrees environment).settled]
      exact (agrees environment).builtinOne called
  | builtinTwo operator =>
      obtain ⟨first, second, rfl⟩ := List.length_eq_two.mp fits
      obtain ⟨eagerFirst, _, firstAgrees, rest, rfl⟩ :=
        List.forall₂_cons_left_iff.mp agree
      obtain ⟨eagerSecond, _, secondAgrees, none, rfl⟩ :=
        List.forall₂_cons_left_iff.mp rest
      obtain rfl := List.forall₂_nil_left_iff.mp none
      cases called
      refine
        ⟨operation operator eagerFirst.normalize eagerSecond.normalize, rfl, ?_⟩
      intro environment
      rw [Expr.normalize_of_not_loose (firstAgrees environment).settled,
        Expr.normalize_of_not_loose (secondAgrees environment).settled]
      exact
        (firstAgrees environment).normalize.combine
          (secondAgrees environment).normalize (honest_strictness operator)

namespace Surface

/-- A sign that is looked up is that of an operator of a level. -/
theorem mem_of_levelOf?
    {sign : Kind} {level : Level} {operator : Operator}
    (found : levelOf? sign = some (level, operator)) :
    ∃ entry, level ∈ Level.table ∧ entry ∈ level.operators ∧
      entry.2 = operator := by
  obtain ⟨candidate, inTable, found⟩ := List.exists_of_findSome?_eq_some found
  obtain ⟨_, operatorFound, same⟩ := Option.map_eq_some_iff.mp found
  cases same
  obtain ⟨entry, entryFound, rfl⟩ := Option.map_eq_some_iff.mp operatorFound
  exact ⟨entry, inTable, List.mem_of_find?_eq_some entryFound, rfl⟩

mutual

/-- An expression that is built has an eager counterpart. -/
theorem mirrored_build {functions : List Callee} :
    (tree : Expr) →
      Mirrored AlwaysAgrees (tree.build .reading functions)
        (tree.build .eager functions)
  | .number text => by
      rw [Expr.build, Expr.build]
      exact .given fun _ => agrees_ofText text
  | .word name => by
      rw [Expr.build, Expr.build]
      exact .given fun _ => agrees_ofText name
  | .index cell inner => by
      rw [Expr.build, Expr.build]
      refine (mirrored_build inner).bind fun index eager agrees => ?_
      exact .given fun environment => (agrees environment).load cell
  | .call name args => by
      rw [Expr.build, Expr.build]
      refine .bind_same fun callable _ => ?_
      exact (mirrored_buildAll args).bind fun _ _ => mirrored_call?
  | .group inner => by
      rw [Expr.build, Expr.build]
      exact mirrored_build inner
  | .signed signs operand => by
      rw [Expr.build, Expr.build]
      refine (mirrored_build operand).bind fun value eager agrees => ?_
      exact .given fun environment => (agrees environment).unaryAll _
  | .binary sign lhs rhs => by
      rw [Expr.build, Expr.build]
      refine .bind_same fun ⟨level, operator⟩ found => ?_
      obtain ⟨entry, inTable, member, rfl⟩ := mem_of_levelOf? found
      refine (mirrored_build lhs).bind fun left eagerLeft leftAgrees => ?_
      refine (mirrored_build rhs).bind fun right eagerRight rightAgrees => ?_
      exact .given fun environment =>
        (leftAgrees environment).level inTable member (rightAgrees environment)

theorem mirrored_buildAll {functions : List Callee} :
    (trees : List Expr) →
      Mirrored (List.Forall₂ AlwaysAgrees)
        (Expr.buildAll .reading functions trees)
        (Expr.buildAll .eager functions trees)
  | [] => by
      rw [Expr.buildAll, Expr.buildAll]
      exact .given .nil
  | first :: others => by
      rw [Expr.buildAll, Expr.buildAll]
      refine (mirrored_build first).bind fun value eager agrees => ?_
      refine (mirrored_buildAll others).bind fun rest eagerRest agree => ?_
      exact .given (.cons agrees agree)

end

end Surface

end FlatCode
