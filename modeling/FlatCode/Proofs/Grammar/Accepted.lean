import FlatCode.Proofs.Grammar.CompleteProgram
import Mathlib.Data.List.Nodup

/-!
# The accepted texts

A token sequence is read as a program exactly if it derives from the grammar by a
valid tree.  Reading and derivations agree up to what is built from a derivation, so
what is left to see is that a derivation is built exactly if it is valid:

* an expression, if every call in it can be resolved and has the right number of
  arguments;
* a statement, if moreover its returns and loop controls are placed well;
* a function, if moreover its name is free and its parameters are distinct.
-/

namespace FlatCode.Surface

open Token (Kind)
open FlatCode.Stmt (Numbered)

/-! ## Calls -/

/-- A call by its name and its number of arguments is resolved among the given
functions, and the number fits. -/
def Resolves (functions : List Callee) (call : String × Nat) : Prop :=
  ∃ callable,
    Callable.resolve? functions call.1 = some callable ∧
      callable.arity = call.2

/-- The built functions have the names and the parameters of the written ones. -/
def SameSignatures
    (built : List FlatCode.Function) (written : List Function) : Prop :=
  built.map (fun function => (function.name, function.params)) =
    written.map fun function => (function.name, function.params)

/-- The written functions have distinct names, none of them that of a builtin. -/
def NamesFree (written : List Function) : Prop :=
  (written.map Function.name).Nodup ∧
    ∀ function ∈ written, function.name ∉ Callable.builtins.map Prod.fst

theorem builtin?_of_mem
    {name : String} {callable : Callable}
    (member : (name, callable) ∈ Callable.builtins) :
    Callable.builtin? name = some callable := by
  have unique :
      ∀ entry ∈ Callable.builtins,
        Callable.builtin? entry.1 = some entry.2 := by
    decide
  exact unique _ member

section Signatures

variable {built : List FlatCode.Function} {written : List Function}
  (same : SameSignatures built written)

include same

/-- A function that is found by its name was written with this name. -/
theorem SameSignatures.exists_written
    {name : String} {callee : Callee}
    (found :
      (built.map FlatCode.Function.callee).find?
        (fun callee => callee.name == name) = some callee) :
    ∃ original ∈ written,
      original.name = name ∧ original.params = callee.params := by
  have named : callee.name = name := by simpa using List.find?_some found
  obtain ⟨function, member, rfl⟩ :=
    List.mem_map.mp (List.mem_of_find?_eq_some found)
  have listed :
      (function.name, function.params) ∈
        written.map fun function => (function.name, function.params) := by
    rw [← same]
    exact List.mem_map_of_mem member
  obtain ⟨original, originalMember, agrees⟩ := List.mem_map.mp listed
  obtain ⟨sameName, sameParams⟩ := Prod.mk.inj agrees
  exact ⟨original, originalMember, sameName.trans named, sameParams⟩

theorem SameSignatures.exists_built
    {function : Function} (member : function ∈ written) :
    ∃ copy ∈ built,
      copy.name = function.name ∧ copy.params = function.params := by
  have listed :
      (function.name, function.params) ∈
        built.map fun function => (function.name, function.params) := by
    rw [same]
    exact List.mem_map_of_mem member
  obtain ⟨copy, copyMember, agrees⟩ := List.mem_map.mp listed
  exact ⟨copy, copyMember, (Prod.mk.inj agrees).1, (Prod.mk.inj agrees).2⟩

theorem SameSignatures.names :
    built.map FlatCode.Function.name = written.map Function.name := by
  have names := congrArg (List.map Prod.fst) same
  rw [List.map_map, List.map_map] at names
  exact names

theorem SameSignatures.append
    {function : FlatCode.Function} {original : Function}
    (name : function.name = original.name)
    (params : function.params = original.params) :
    SameSignatures (built ++ [function]) (written ++ [original]) := by
  unfold SameSignatures at same ⊢
  rw [List.map_append, List.map_append, same, List.map_singleton,
    List.map_singleton, name, params]

/-- Among functions with distinct names that are not those of builtins, a call is
resolved exactly if it goes to one of the functions or to a builtin. -/
theorem resolves_iff_known (free : NamesFree written) (call : String × Nat) :
    Resolves (built.map FlatCode.Function.callee) call ↔
      Known written call := by
  obtain ⟨name, count⟩ := call
  unfold Resolves Callable.resolve?
  constructor
  · rintro ⟨callable, resolved, arity⟩
    split at resolved
    · next callee found =>
        cases resolved
        obtain ⟨original, member, named, sameParams⟩ :=
          same.exists_written found
        refine Or.inl ⟨original, member, named, ?_⟩
        rw [sameParams]
        exact arity
    · next missing =>
        obtain ⟨entry, found, rfl⟩ := Option.map_eq_some_iff.mp resolved
        have named : entry.1 = name := by simpa using List.find?_some found
        refine Or.inr ⟨entry.2, ?_, arity⟩
        rw [← named]
        exact List.mem_of_find?_eq_some found
  · rintro (⟨function, member, named, arity⟩ | ⟨callable, member, arity⟩)
    · split
      · next callee found =>
          obtain ⟨original, originalMember, sameName, sameParams⟩ :=
            same.exists_written found
          have unique : original = function :=
            List.inj_on_of_nodup_map free.1 originalMember member
              (sameName.trans named.symm)
          refine ⟨_, rfl, ?_⟩
          rw [Callable.arity, ← sameParams, unique]
          exact arity
      · next missing =>
          obtain ⟨copy, copyMember, sameName, _⟩ := same.exists_built member
          have noCopy :=
            List.find?_eq_none.mp missing copy.callee
              (List.mem_map_of_mem copyMember)
          exact absurd (beq_iff_eq.mpr (sameName.trans named)) noCopy
    · split
      · next callee found =>
          obtain ⟨original, originalMember, named, _⟩ :=
            same.exists_written found
          refine absurd ?_ (free.2 original originalMember)
          rw [named]
          exact List.mem_map.mpr ⟨_, member, rfl⟩
      · exact ⟨callable, builtin?_of_mem member, arity⟩

end Signatures

/-! ## Expressions -/

/-- A sequence of two steps succeeds if the first does and the second does on its
value. -/
theorem exists_bind_eq_some
    {α β : Type} {first : Option α} {next : α → Option β} :
    (∃ result, (first >>= next) = some result) ↔
      ∃ value, first = some value ∧ ∃ result, next value = some result := by
  cases first with
  | none =>
      simp
  | some value =>
      simp

theorem exists_some_eq {α : Type} (value : α) :
    (∃ result, some value = some result) ↔ True :=
  iff_true_intro ⟨value, rfl⟩

theorem length_buildAll
    {functions : List Callee} {trees : List Expr}
    {values : List FlatCode.Expr}
    (builds : Expr.buildAll .reading functions trees = some values) :
    values.length = trees.length := by
  induction trees generalizing values with
  | nil =>
      rw [Expr.buildAll] at builds
      cases builds
      rfl
  | cons first others inductionHypothesis =>
      rw [Expr.buildAll] at builds
      obtain ⟨_, _, builds⟩ := Option.bind_eq_some_iff.mp builds
      obtain ⟨_, othersBuild, builds⟩ := Option.bind_eq_some_iff.mp builds
      cases builds
      simp [inductionHypothesis othersBuild]

section Expressions

variable (functions : List Callee)

def ExprBuilds (tree : Expr) : Prop :=
  ∃ built, tree.build .reading functions = some built

def ExprsBuild (trees : List Expr) : Prop :=
  ∃ built, Expr.buildAll .reading functions trees = some built

variable {functions} {name : String} {sign : Kind} {signs : List Kind}
  {tree lhs rhs : Expr} {trees : List Expr}

theorem exprBuilds_index :
    ExprBuilds functions (.index name tree) ↔ ExprBuilds functions tree := by
  simp [ExprBuilds, Option.bind_eq_some_iff]

theorem exprBuilds_group :
    ExprBuilds functions (.group tree) ↔ ExprBuilds functions tree := by
  simp [ExprBuilds]

theorem exprBuilds_signed :
    ExprBuilds functions (.signed signs tree) ↔ ExprBuilds functions tree := by
  simp [ExprBuilds, Option.bind_eq_some_iff]

theorem exprBuilds_binary (inTable : sign ∈ binaryLevels.flatten) :
    ExprBuilds functions (.binary sign lhs rhs) ↔
      ExprBuilds functions lhs ∧ ExprBuilds functions rhs := by
  have known :
      ∀ kind ∈ binaryLevels.flatten, ∃ found, levelOf? kind = some found := by
    simp only [← Option.isSome_iff_exists]
    decide
  obtain ⟨found, levelFound⟩ := known sign inTable
  simp [ExprBuilds, levelFound, Option.bind_eq_some_iff]

theorem exprsBuild_cons :
    ExprsBuild functions (tree :: trees) ↔
      ExprBuilds functions tree ∧ ExprsBuild functions trees := by
  simp [ExprBuilds, ExprsBuild, Option.bind_eq_some_iff]

theorem exprBuilds_call :
    ExprBuilds functions (.call name trees) ↔
      Resolves functions (name, trees.length) ∧ ExprsBuild functions trees := by
  constructor
  · rintro ⟨built, builds⟩
    rw [Expr.build] at builds
    obtain ⟨callable, resolved, builds⟩ := Option.bind_eq_some_iff.mp builds
    obtain ⟨values, valuesBuild, called⟩ := Option.bind_eq_some_iff.mp builds
    have fits :=
      (Callable.call?_isSome_iff callable _).mp
        (Option.isSome_of_eq_some called)
    rw [List.length_map, length_buildAll valuesBuild] at fits
    exact ⟨⟨callable, resolved, fits.symm⟩, values, valuesBuild⟩
  · rintro ⟨⟨callable, resolved, fits⟩, values, valuesBuild⟩
    have called :
        (callable.call? (values.map FlatCode.Expr.normalize)).isSome := by
      rw [Callable.call?_isSome_iff, List.length_map,
        length_buildAll valuesBuild]
      exact fits.symm
    obtain ⟨built, called⟩ := Option.isSome_iff_exists.mp called
    refine ⟨built, ?_⟩
    simp only [Expr.build, resolved, valuesBuild, Option.bind_eq_bind,
      Option.bind_some]
    exact called

mutual

/-- A derived expression is built exactly if its calls are resolved. -/
theorem exprBuilds_of_level
    {levels : List (List Kind)} {tree : Expr} {before after : List Token}
    (within : ∀ level ∈ levels, level ∈ binaryLevels) :
    LevelDerives levels tree before after →
      (ExprBuilds functions tree ↔
        ∀ call ∈ tree.calls, Resolves functions call)
  | .signed _ operand => by
      rw [exprBuilds_signed, Expr.calls]
      exact exprBuilds_of_operand operand
  | .tighter _ inner => by
      apply exprBuilds_of_level _ inner
      exact (List.forall_mem_cons.mp within).2
  | .binary lhs member rhs => by
      have inTable :=
        List.mem_flatten.mpr ⟨_, within _ List.mem_cons_self, member⟩
      rw [exprBuilds_binary inTable, Expr.calls, List.forall_mem_append,
        exprBuilds_of_level within lhs,
        exprBuilds_of_level (List.forall_mem_cons.mp within).2 rhs]

theorem exprBuilds_of_operand
    {tree : Expr} {before after : List Token} :
    OperandDerives tree before after →
      (ExprBuilds functions tree ↔
        ∀ call ∈ tree.calls, Resolves functions call)
  | .number _ _ => by
      simp [ExprBuilds]
  | .word _ _ => by
      simp [ExprBuilds]
  | .index _ _ inner _ => by
      rw [exprBuilds_index, Expr.calls]
      exact exprBuilds_of_level (fun _ member => member) inner
  | .callEmpty _ _ _ _ => by
      rw [exprBuilds_call, Expr.calls, Expr.callsAll, List.forall_mem_cons]
      simp [ExprsBuild]
  | .call _ _ args _ => by
      rw [exprBuilds_call, Expr.calls, List.forall_mem_cons,
        exprsBuild_of_arguments args]
  | .group _ inner _ => by
      rw [exprBuilds_group, Expr.calls]
      exact exprBuilds_of_level (fun _ member => member) inner

theorem exprsBuild_of_arguments
    {trees : List Expr} {before after : List Token} :
    ArgumentsDerive trees before after →
      (ExprsBuild functions trees ↔
        ∀ call ∈ Expr.callsAll trees, Resolves functions call)
  | .last first => by
      rw [exprsBuild_cons, Expr.callsAll, List.forall_mem_append,
        exprBuilds_of_level (fun _ member => member) first]
      simp [ExprsBuild]
  | .more first _ others => by
      rw [exprsBuild_cons, Expr.callsAll, List.forall_mem_append,
        exprBuilds_of_level (fun _ member => member) first,
        exprsBuild_of_arguments others]

end

/-- An expression of the lowest level is built exactly if its calls are
resolved. -/
theorem exprBuilds_of_derives
    {tree : Expr} {before after : List Token}
    (derived : LevelDerives binaryLevels tree before after) :
    ExprBuilds functions tree ↔
      ∀ call ∈ tree.calls, Resolves functions call :=
  exprBuilds_of_level (fun _ member => member) derived

end Expressions

/-! ## Statements -/

section Statements

variable (around : Surroundings) (created : Nat)

def StmtBuilds (tree : Stmt) : Prop :=
  ∃ result, tree.build .reading around created = some result

def StmtsBuild (trees : List Stmt) : Prop :=
  ∃ result, Stmt.buildAll .reading around created trees = some result

/-- The returns and loop controls of a statement are placed well and its calls are
resolved. -/
def StmtFits (tree : Stmt) : Prop :=
  tree.Placed around.function.isSome around.loop.isSome ∧
    ∀ call ∈ tree.calls, Resolves around.functions call

def StmtsFit (trees : List Stmt) : Prop :=
  Stmt.PlacedAll around.function.isSome around.loop.isSome trees ∧
    ∀ call ∈ Stmt.callsAll trees, Resolves around.functions call

variable {around created} {name : String} {index value condition : Expr}
  {tree thenBranch elseBranch : Stmt} {trees : List Stmt}

theorem stmtBuilds_assign :
    StmtBuilds around created (.assign name value) ↔
      ExprBuilds around.functions value := by
  simp only [StmtBuilds, ExprBuilds, Stmt.build, exists_bind_eq_some,
    exists_some_eq, and_true]

theorem stmtBuilds_store :
    StmtBuilds around created (.store name index value) ↔
      ExprBuilds around.functions index ∧
        ExprBuilds around.functions value := by
  simp only [StmtBuilds, ExprBuilds, Stmt.build, exists_bind_eq_some,
    exists_some_eq, and_true, exists_and_right]

theorem stmtBuilds_ifThen :
    StmtBuilds around created (.ifThen condition thenBranch) ↔
      ExprBuilds around.functions condition ∧
        StmtBuilds around created thenBranch := by
  simp only [StmtBuilds, ExprBuilds, Stmt.build, exists_bind_eq_some,
    exists_some_eq, and_true, exists_and_right]

/-- The second branch of a choice is built behind the labels of the first one. -/
theorem stmtBuilds_ifElse :
    StmtBuilds around created (.ifElse condition thenBranch elseBranch) ↔
      ExprBuilds around.functions condition ∧
        ∃ first,
          thenBranch.build .reading around created = some first ∧
            StmtBuilds around first.2 elseBranch := by
  simp only [StmtBuilds, ExprBuilds, Stmt.build, exists_bind_eq_some,
    exists_some_eq, and_true, exists_and_right]

theorem stmtBuilds_loop :
    StmtBuilds around created (.loop condition tree) ↔
      ExprBuilds around.functions condition ∧
        StmtBuilds { around with loop := some ⟨⟨created⟩, ⟨created + 1⟩⟩ }
          (created + 2) tree := by
  simp only [StmtBuilds, ExprBuilds, Stmt.build, exists_bind_eq_some,
    exists_some_eq, and_true, exists_and_right]

theorem stmtBuilds_ret :
    StmtBuilds around created (.ret none) ↔
      around.function.isSome = true := by
  simp only [StmtBuilds, Stmt.build, exists_bind_eq_some, exists_some_eq,
    and_true, Option.isSome_iff_exists]

theorem stmtBuilds_retValue :
    StmtBuilds around created (.ret (some value)) ↔
      around.function.isSome = true ∧ ExprBuilds around.functions value := by
  simp only [StmtBuilds, ExprBuilds, Stmt.build, exists_bind_eq_some,
    exists_some_eq, and_true, exists_and_right, Option.isSome_iff_exists]

theorem stmtBuilds_leave :
    StmtBuilds around created .leave ↔ around.loop.isSome = true := by
  simp only [StmtBuilds, Stmt.build, exists_bind_eq_some, exists_some_eq,
    and_true, Option.isSome_iff_exists]

theorem stmtBuilds_again :
    StmtBuilds around created .again ↔ around.loop.isSome = true := by
  simp only [StmtBuilds, Stmt.build, exists_bind_eq_some, exists_some_eq,
    and_true, Option.isSome_iff_exists]

theorem stmtBuilds_block :
    StmtBuilds around created (.block trees) ↔
      StmtsBuild around created trees := by
  simp only [StmtBuilds, StmtsBuild, Stmt.build, exists_bind_eq_some,
    exists_some_eq, and_true]

theorem stmtsBuild_cons :
    StmtsBuild around created (tree :: trees) ↔
      ∃ first,
        tree.build .reading around created = some first ∧
          StmtsBuild around first.2 trees := by
  simp only [StmtsBuild, Stmt.buildAll, exists_bind_eq_some, exists_some_eq,
    and_true]

mutual

/-- A derived statement is built exactly if it fits its surroundings. -/
theorem stmtBuilds_of_derives
    {tree : Stmt} {before after : List Token} (around : Surroundings)
    (created : Nat) :
    StmtDerives tree before after →
      (StmtBuilds around created tree ↔ StmtFits around tree)
  | .assign _ _ value _ => by
      rw [stmtBuilds_assign, exprBuilds_of_derives value.1]
      simp [StmtFits]
  | .store _ _ index _ _ value _ => by
      rw [stmtBuilds_store, exprBuilds_of_derives index,
        exprBuilds_of_derives value.1, ← List.forall_mem_append]
      simp [StmtFits]
  | .ifThen _ _ condition _ thenBranch _ => by
      rw [stmtBuilds_ifThen, exprBuilds_of_derives condition,
        stmtBuilds_of_derives around created thenBranch]
      simp only [StmtFits, Stmt.Placed, Stmt.calls, List.forall_mem_append]
      exact and_left_comm
  | .ifElse _ _ condition _ thenBranch _ elseBranch => by
      have second := fun created =>
        stmtBuilds_of_derives around created elseBranch
      rw [stmtBuilds_ifElse, exprBuilds_of_derives condition]
      simp only [second, exists_and_right]
      rw [← StmtBuilds, stmtBuilds_of_derives around created thenBranch]
      simp only [StmtFits, Stmt.Placed, Stmt.calls, List.forall_mem_append]
      grind
  | .loop _ _ condition _ body => by
      rw [stmtBuilds_loop, exprBuilds_of_derives condition,
        stmtBuilds_of_derives _ (created + 2) body]
      simp only [StmtFits, Stmt.Placed, Stmt.calls, List.forall_mem_append,
        Option.isSome_some]
      exact and_left_comm
  | .ret _ _ _ => by
      rw [stmtBuilds_ret]
      simp [StmtFits]
  | .retValue _ _ value _ => by
      rw [stmtBuilds_retValue, exprBuilds_of_derives value.1]
      simp [StmtFits]
  | .leave _ _ => by
      rw [stmtBuilds_leave]
      simp [StmtFits]
  | .again _ _ => by
      rw [stmtBuilds_again]
      simp [StmtFits]
  | .raw _ _ => by
      simp [StmtBuilds, StmtFits]
  | .block _ body _ => by
      rw [stmtBuilds_block, stmtsBuild_of_derive around created body]
      simp only [StmtFits, StmtsFit, Stmt.Placed, Stmt.calls]
  | .empty _ _ => by
      simp [StmtBuilds, StmtFits]

/-- Derived statements are built exactly if they fit their surroundings. -/
theorem stmtsBuild_of_derive
    {trees : List Stmt} {before after : List Token} (around : Surroundings)
    (created : Nat) :
    StmtsDerive trees before after →
      (StmtsBuild around created trees ↔ StmtsFit around trees)
  | .nil _ => by
      simp [StmtsBuild, StmtsFit]
  | .cons first others => by
      have rest := fun created => stmtsBuild_of_derive around created others
      rw [stmtsBuild_cons]
      simp only [rest, exists_and_right]
      rw [← StmtBuilds, stmtBuilds_of_derives around created first]
      simp only [StmtFits, StmtsFit, Stmt.PlacedAll, Stmt.callsAll,
        List.forall_mem_append]
      exact and_and_and_comm

end

end Statements

/-! ## Functions -/

namespace Function

/-- What is asked of a function that stands behind the given functions. -/
structure Valid (above : List Function) (function : Function) : Prop where
  name_free : function.name ∉ above.map Function.name
  name_not_builtin : function.name ∉ Callable.builtins.map Prod.fst
  params_nodup : function.params.Nodup
  body_placed : Stmt.PlacedAll true false function.body
  body_known : ∀ call ∈ Stmt.callsAll function.body, Known above call

def ValidAll (above : List Function) : List Function → Prop
  | [] => True
  | first :: others => first.Valid above ∧ ValidAll (above ++ [first]) others

end Function

theorem NamesFree.append
    {above : List Function} {function : Function} (free : NamesFree above)
    (valid : function.Valid above) :
    NamesFree (above ++ [function]) := by
  constructor
  · rw [List.map_append, List.nodup_append]
    refine ⟨free.1, List.nodup_singleton _, ?_⟩
    rintro name member other (_ | ⟨_, ⟨⟩⟩) rfl
    exact valid.name_free member
  · rw [List.forall_mem_append, List.forall_mem_singleton]
    exact ⟨free.2, valid.name_not_builtin⟩

/-- Functions are valid one behind the other exactly if their names are distinct and
each of them is in order. -/
theorem validAll_iff
    {trees above : List Function} (free : NamesFree above) :
    Function.ValidAll above trees ↔
      NamesFree (above ++ trees) ∧
        (∀ function ∈ trees, function.params.Nodup) ∧
        (∀ function ∈ trees, Stmt.PlacedAll true false function.body) ∧
        ∀ before function after,
          trees = before ++ function :: after →
            ∀ call ∈ Stmt.callsAll function.body,
              Known (above ++ before) call := by
  induction trees generalizing above with
  | nil =>
      simp [Function.ValidAll, free]
  | cons first others inductionHypothesis =>
      constructor
      · rintro ⟨valid, othersValid⟩
        obtain ⟨othersFree, params, placed, known⟩ :=
          (inductionHypothesis (free.append valid)).mp othersValid
        rw [← List.append_cons] at othersFree
        refine
          ⟨othersFree, List.forall_mem_cons.mpr ⟨valid.params_nodup, params⟩,
            List.forall_mem_cons.mpr ⟨valid.body_placed, placed⟩, ?_⟩
        intro before function after split
        rcases List.cons_eq_append_iff.mp split with
          ⟨rfl, same⟩ | ⟨between, rfl, rest⟩
        · cases same
          rw [List.append_nil]
          exact valid.body_known
        · rw [List.append_cons]
          exact known between function after rest
      · rintro ⟨allFree, params, placed, known⟩
        have valid : first.Valid above := by
          refine ⟨?_, allFree.2 first (by simp), params first (by simp),
            placed first (by simp), ?_⟩
          · have distinct := allFree.1
            rw [List.map_append, List.map_cons] at distinct
            exact not_mem_of_nodup_append distinct
          · have own := known [] first others rfl
            rw [List.append_nil] at own
            exact own
        refine ⟨valid, (inductionHypothesis (free.append valid)).mpr ?_⟩
        rw [← List.append_cons]
        refine
          ⟨allFree, (List.forall_mem_cons.mp params).2,
            (List.forall_mem_cons.mp placed).2, ?_⟩
        intro before function after split
        have later := known (first :: before) function after (by simp [split])
        rw [List.append_cons] at later
        exact later

section Functions

variable {functions : List FlatCode.Function} {created : Nat}
  {above : List Function}

theorem signature_of_build
    {tree : Function} {result : Numbered FlatCode.Function}
    (builds : tree.build .reading functions created = some result) :
    result.1.name = tree.name ∧ result.1.params = tree.params := by
  rw [Function.build, Option.ite_none_right_eq_some] at builds
  obtain ⟨_, _, builds⟩ := Option.bind_eq_some_iff.mp builds.2
  cases builds
  exact ⟨rfl, rfl⟩

theorem sameSignatures_of_buildAll
    {trees : List Function} {result : Numbered (List FlatCode.Function)}
    (same : SameSignatures functions above)
    (builds :
      Function.buildAll .reading functions created trees = some result) :
    SameSignatures result.1 (above ++ trees) := by
  induction trees generalizing functions created above with
  | nil =>
      rw [Function.buildAll] at builds
      cases builds
      rw [List.append_nil]
      exact same
  | cons first others inductionHypothesis =>
      rw [Function.buildAll] at builds
      obtain ⟨built, firstBuilds, builds⟩ := Option.bind_eq_some_iff.mp builds
      obtain ⟨name, params⟩ := signature_of_build firstBuilds
      rw [List.append_cons]
      exact inductionHypothesis (same.append name params) builds

/-- A derived function is built exactly if it is valid behind the functions above
it. -/
theorem functionBuilds_iff_valid
    {tree : Function} {before after : List Token}
    (derived : FunctionDerives tree before after)
    (same : SameSignatures functions above) (free : NamesFree above) :
    (∃ result, tree.build .reading functions created = some result) ↔
      tree.Valid above := by
  cases derived with
  | @mk _ name _ _ params body _ _ _ _ _ _ _ inner _ =>
      have bodyBuilds :=
        stmtsBuild_of_derive
          ⟨functions.map FlatCode.Function.callee, some name.payload, none⟩
          created inner
      simp only [StmtsBuild, StmtsFit, Option.isSome_some, Option.isSome_none,
        resolves_iff_known same free] at bodyBuilds
      simp only [Function.build, Option.ite_none_right_eq_some,
        exists_and_left, exists_bind_eq_some, exists_some_eq, and_true,
        bodyBuilds, Function.Fresh, same.names,
        Callable.builtin?_eq_none_iff]
      constructor
      · rintro ⟨⟨nameFree, notBuiltin, distinct⟩, placed, known⟩
        exact ⟨nameFree, notBuiltin, distinct, placed, known⟩
      · rintro ⟨nameFree, notBuiltin, distinct, placed, known⟩
        exact ⟨⟨nameFree, notBuiltin, distinct⟩, placed, known⟩

/-- Derived functions are built exactly if they are valid one behind the other. -/
theorem functionsBuild_iff_validAll
    {trees : List Function} {before after : List Token}
    (derived : FunctionsDerive trees before after)
    (same : SameSignatures functions above) (free : NamesFree above) :
    (∃ result,
        Function.buildAll .reading functions created trees = some result) ↔
      Function.ValidAll above trees := by
  induction derived generalizing functions created above with
  | nil after =>
      simp [Function.buildAll, Function.ValidAll]
  | @cons first others before middle after firstDerived _
      inductionHypothesis =>
      rw [Function.buildAll, exists_bind_eq_some, Function.ValidAll]
      constructor
      · rintro ⟨built, firstBuilds, othersBuild⟩
        obtain ⟨name, params⟩ := signature_of_build firstBuilds
        have valid : first.Valid above :=
          (functionBuilds_iff_valid firstDerived same free).mp
            ⟨built, firstBuilds⟩
        exact
          ⟨valid,
            (inductionHypothesis (same.append name params)
              (free.append valid)).mp othersBuild⟩
      · rintro ⟨valid, othersValid⟩
        obtain ⟨built, firstBuilds⟩ :=
          (functionBuilds_iff_valid firstDerived same free).mpr valid
        obtain ⟨name, params⟩ := signature_of_build firstBuilds
        exact
          ⟨built, firstBuilds,
            (inductionHypothesis (same.append name params)
              (free.append valid)).mpr othersValid⟩

end Functions

/-! ## Programs -/

theorem namesFree_nil : NamesFree [] :=
  ⟨List.nodup_nil, by simp⟩

theorem Program.valid_iff (tree : Program) :
    tree.Valid ↔
      Function.ValidAll [] tree.functions ∧
        Stmt.PlacedAll false false tree.main ∧
        ∀ call ∈ Stmt.callsAll tree.main, Known tree.functions call := by
  rw [validAll_iff namesFree_nil]
  constructor
  · intro valid
    exact
      ⟨⟨⟨valid.names_nodup, valid.name_not_builtin⟩, valid.params_nodup,
          valid.body_placed, valid.body_known⟩,
        valid.main_placed, valid.main_known⟩
  · rintro ⟨⟨⟨distinct, notBuiltin⟩, params, placed, known⟩, mainPlaced,
      mainKnown⟩
    exact ⟨distinct, notBuiltin, params, placed, mainPlaced, known, mainKnown⟩

/-- A derived program is built exactly if it is valid. -/
theorem programBuilds_iff_valid
    {tree : Program} {sequence : List Token}
    (derived : tree.Derives sequence) :
    (∃ program, tree.build .reading = some program) ↔ tree.Valid := by
  obtain ⟨tokens, last, middle, _, _, functionsDerived, mainDerived⟩ := derived
  have nothing : SameSignatures [] [] := rfl
  have functionsBuild :
      (∃ functions,
          Function.buildAll .reading [] 0 tree.functions = some functions) ↔
        Function.ValidAll [] tree.functions :=
    functionsBuild_iff_validAll functionsDerived nothing namesFree_nil
  have mainBuilds :
      ∀ functions,
        Function.buildAll .reading [] 0 tree.functions = some functions →
          (StmtsBuild
              ⟨functions.1.map FlatCode.Function.callee, none, none⟩
              functions.2 tree.main ↔
            Stmt.PlacedAll false false tree.main ∧
              ∀ call ∈ Stmt.callsAll tree.main,
                Known tree.functions call) := by
    intro functions builds
    have valid := functionsBuild.mp ⟨functions, builds⟩
    have free := ((validAll_iff namesFree_nil).mp valid).1
    have same := sameSignatures_of_buildAll nothing builds
    rw [stmtsBuild_of_derive _ functions.2 mainDerived, StmtsFit]
    simp only [resolves_iff_known same free]
    exact Iff.rfl
  rw [Program.valid_iff, ← functionsBuild, ← exists_and_right]
  simp only [Program.build, exists_bind_eq_some, exists_some_eq, and_true]
  exact exists_congr fun functions => and_congr_right (mainBuilds functions)

end FlatCode.Surface

namespace FlatCode

open Token (Stream endOfInput)

namespace Token.Stream

theorem kind_of_ending_ofLines
    {lines : List (List Char)} {line : Nat} {last : Token}
    (ended : (ofLines line lines).ending = .ok last) :
    last.kind = .eof := by
  induction lines generalizing line with
  | nil =>
      cases ended
      rfl
  | cons text later inductionHypothesis =>
      rw [ofLines] at ended
      split at ended
      · cases ended
      · exact inductionHypothesis ended

end Token.Stream

/-- The tokens in front of the end of the input are read exactly if they have a
valid derivation. -/
theorem Program.exists_ofStream_iff
    {stream : Stream} {last : Token} (isLast : last.kind = .eof)
    (ended : stream.ending = .ok last) :
    (∃ program, ofStream stream = .ok program) ↔
      ∃ tree : Surface.Program,
        tree.Derives (stream.tokens ++ [last]) ∧ tree.Valid := by
  constructor
  · rintro ⟨program, read⟩
    obtain ⟨tree, derived, builds⟩ := Surface.derives_of_ofStream isLast read
    exact
      ⟨tree, derived,
        (Surface.programBuilds_iff_valid derived).mp ⟨program, builds⟩⟩
  · rintro ⟨tree, derived, valid⟩
    obtain ⟨program, builds⟩ :=
      (Surface.programBuilds_iff_valid derived).mpr valid
    exact ⟨program, Surface.ofStream_of_derives ended isLast derived builds⟩

/-- A program is only read if the end of the input is met. -/
theorem Program.ending_of_ofStream
    {stream : Stream} {program : Program}
    (read : ofStream stream = .ok program) :
    ∃ last, stream.ending = .ok last := by
  obtain ⟨_, _, read⟩ := bind_eq_ok_iff.mp read
  obtain ⟨main, _, read⟩ := bind_eq_ok_iff.mp read
  obtain ⟨_, ended, _⟩ := bind_eq_ok_iff.mp read
  cases left : main.rest with
  | nil =>
      rw [left] at ended
      obtain ⟨last, ended, _⟩ := bind_eq_ok_iff.mp ended
      exact ⟨last, ended⟩
  | cons token rest =>
      rw [left] at ended
      cases ended

/-- A text that is read as a program has a derivation that is built into it. -/
theorem Program.exists_derivation_of_parse
    {source : String} {program : Program}
    (read : parse source = .ok program) :
    ∃ sequence,
      Token.tokenize source = .ok sequence ∧
        ∃ tree : Surface.Program,
          tree.Derives sequence ∧ tree.build .reading = some program := by
  obtain ⟨last, ended⟩ := ending_of_ofStream read
  have isLast := Stream.kind_of_ending_ofLines ended
  refine ⟨(Stream.ofString source).tokens ++ [last], ?_, ?_⟩
  · rw [Token.tokenize, Stream.toList, ended]
    rfl
  · exact Surface.derives_of_ofStream isLast read

/-- Tokens with the end of the input behind them are read as a program exactly if
they derive from the grammar by a valid tree, and a text is read as a program exactly
if its tokens do. -/
theorem accepted_iff_derives :
    (∀ (tokens : List Token) (position : Position),
      (∃ program,
          Program.ofStream ⟨tokens, .ok (endOfInput position)⟩ =
            .ok program) ↔
        ∃ tree : Surface.Program,
          tree.Derives (tokens ++ [endOfInput position]) ∧ tree.Valid) ∧
    ∀ source : String,
      (∃ program, Program.parse source = .ok program) ↔
        ∃ sequence,
          Token.tokenize source = .ok sequence ∧
            ∃ tree : Surface.Program,
              tree.Derives sequence ∧ tree.Valid := by
  constructor
  · intro tokens position
    have isLast : (endOfInput position).kind = .eof := rfl
    exact Program.exists_ofStream_iff isLast rfl
  · intro source
    constructor
    · rintro ⟨program, read⟩
      obtain ⟨sequence, tokenized, tree, derived, builds⟩ :=
        Program.exists_derivation_of_parse read
      have valid :=
        (Surface.programBuilds_iff_valid derived).mp ⟨program, builds⟩
      exact ⟨sequence, tokenized, tree, derived, valid⟩
    · rintro ⟨sequence, tokenized, derivable⟩
      cases ended : (Stream.ofString source).ending with
      | error report =>
          rw [Token.tokenize, Stream.toList, ended] at tokenized
          cases tokenized
      | ok last =>
          rw [Token.tokenize, Stream.toList, ended] at tokenized
          cases tokenized
          have isLast := Stream.kind_of_ending_ofLines ended
          exact (Program.exists_ofStream_iff isLast ended).mpr derivable

end FlatCode
