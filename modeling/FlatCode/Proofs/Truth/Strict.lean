import FlatCode.Proofs.Reading.Program
import FlatCode.Proofs.Tree.Call
import FlatCode.Proofs.Truth.Value

/-!
# Strict expressions have truth values

An expression is noted as strict when it is built, from the notes on its operands and
from what its level or its builtin says about results.  In a program that was read
every note is true: whatever variables, loads, calls and open operators give, a strict
expression has no value but zero and one.

`Expr.Yields` are the values that an expression can have.  Two occurrences of one
variable, of one load or of one call need not agree, so an environment that changes
while an expression is evaluated is covered too; the value in a fixed environment
is one of them.
-/

namespace FlatCode

namespace Expr

/-! ## The values of an expression -/

/-- The values that an expression can have.  Only the literal zero has a value of its
own. -/
inductive Yields : Expr → Int → Prop
  | atom {truth : Truth} {text : String} {value : Int} :
      (text = "0" → value = 0) → Yields (.atom truth text) value
  | binary {truth : Truth} {operator : Operator} {lhs rhs : Expr}
      {left right value : Int} :
      Yields lhs left → Yields rhs right → operator.Gives left right value →
        Yields (.binary truth operator lhs rhs) value
  | call (truth : Truth) (callee : Callee) (args : List Expr) (value : Int) :
      Yields (.call truth callee args) value
  | load (truth : Truth) (cell : String) (index : Expr) (value : Int) :
      Yields (.load truth cell index) value

/-- The value in an environment is one of the values that an expression can have. -/
theorem yields_eval (environment : Environment) (expr : Expr) :
    expr.Yields (expr.eval environment) := by
  induction expr with
  | atom truth text =>
      rw [eval]
      refine .atom ?_
      rintro rfl
      exact environment.word_zero
  | binary truth operator lhs rhs lhsYields rhsYields =>
      rw [eval]
      exact .binary lhsYields rhsYields (environment.gives_operate operator _ _)
  | call truth callee args =>
      exact .call truth callee args _
  | load truth cell index =>
      exact .load truth cell index _

theorem yields_withTruth_iff {truth : Truth} {expr : Expr} {value : Int} :
    (expr.withTruth truth).Yields value ↔ expr.Yields value := by
  constructor
  · intro yields
    cases expr with
    | atom _ text =>
        cases yields with
        | atom zero => exact .atom zero
    | binary _ operator lhs rhs =>
        cases yields with
        | binary left right gives => exact .binary left right gives
    | call noted callee args =>
        exact .call noted callee args value
    | load noted cell index =>
        exact .load noted cell index value
  · intro yields
    cases yields with
    | atom zero => exact .atom zero
    | binary left right gives => exact .binary left right gives
    | call _ callee args => exact .call truth callee args value
    | load _ cell index => exact .load truth cell index value

/-! ## Notes that are true -/

/-- If an expression is noted as strict, all its values are truth values. -/
def StrictSound (expr : Expr) : Prop :=
  expr.truth.strict = true → ∀ value, expr.Yields value → IsTruth value

/-- The notes on an expression and on all expressions inside it are true. -/
def AllStrictSound (expr : Expr) : Prop :=
  ∀ node ∈ expr.nodes, node.StrictSound

variable {expr lhs rhs : Expr}

theorem AllStrictSound.self (sound : expr.AllStrictSound) : expr.StrictSound := by
  apply sound
  cases expr <;> simp [nodes]

theorem allStrictSound_atom
    {truth : Truth} {text : String} (sound : (atom truth text).StrictSound) :
    (atom truth text).AllStrictSound := by
  intro node member
  rw [nodes, List.mem_singleton] at member
  exact member ▸ sound

theorem allStrictSound_binary
    {truth : Truth} {operator : Operator}
    (root : (binary truth operator lhs rhs).StrictSound)
    (lhsSound : lhs.AllStrictSound) (rhsSound : rhs.AllStrictSound) :
    (binary truth operator lhs rhs).AllStrictSound := by
  intro node member
  rw [nodes, List.mem_cons, List.mem_append] at member
  rcases member with rfl | left | right
  · exact root
  · exact lhsSound node left
  · exact rhsSound node right

theorem allStrictSound_zero : zero.AllStrictSound := by
  apply allStrictSound_atom
  intro _ value yields
  cases yields with
  | atom zero => exact Or.inl (zero rfl)

/-- An operation is noted as strict only where its operator gives truth values. -/
theorem AllStrictSound.apply
    {operator : Operator} {strict : Option Bool}
    (honest : operator.Honest strict) (lhsSound : lhs.AllStrictSound)
    (rhsSound : rhs.AllStrictSound) :
    (Expr.apply operator strict lhs rhs).AllStrictSound := by
  refine allStrictSound_binary ?_ lhsSound rhsSound
  intro isStrict value yields
  cases yields with
  | binary left right gives =>
      match strict, honest, isStrict with
      | some true, honest, _ =>
          exact honest _ _ _ gives
      | none, honest, isStrict =>
          have both : lhs.truth.strict && rhs.truth.strict := isStrict
          rw [Bool.and_eq_true] at both
          exact
            honest _ _ _ (lhsSound.self both.1 _ left)
              (rhsSound.self both.2 _ right) gives

theorem AllStrictSound.normalize (sound : expr.AllStrictSound) :
    expr.normalize.AllStrictSound := by
  unfold Expr.normalize
  split
  · refine allStrictSound_binary ?_ sound allStrictSound_zero
    intro _ value yields
    cases yields with
    | binary left right gives =>
        exact Operator.isTruth_of_decides (by simp) gives
  · exact sound

theorem AllStrictSound.combine
    {operator : Operator} {strict : Option Bool}
    (honest : operator.Honest strict) (normalizes : Bool)
    (lhsSound : lhs.AllStrictSound) (rhsSound : rhs.AllStrictSound) :
    (Expr.combine operator strict normalizes lhs rhs).AllStrictSound := by
  unfold Expr.combine
  split
  · exact .apply honest lhsSound.normalize rhsSound.normalize
  · exact .apply honest lhsSound rhsSound

/-- That a truth value is wanted changes neither the note on strictness nor the
value. -/
theorem AllStrictSound.wantTruth (sound : expr.AllStrictSound) :
    expr.wantTruth.AllStrictSound := by
  have root : expr.wantTruth.StrictSound := by
    intro isStrict value yields
    have noted : expr.truth.strict = true := by
      cases expr <;> exact isStrict
    exact sound.self noted value (yields_withTruth_iff.mp yields)
  intro node member
  have split : node = expr.wantTruth ∨ node ∈ expr.nodes := by
    cases expr <;>
      simp only [Expr.wantTruth, withTruth, nodes, List.mem_cons] at member ⊢ <;>
      tauto
  rcases split with rfl | inside
  · exact root
  · exact sound node inside

theorem AllStrictSound.unary (unary : Unary) (sound : expr.AllStrictSound) :
    (Unary.apply unary expr).AllStrictSound := by
  cases unary with
  | negate =>
      have honest : Operator.sub.Honest (some false) := trivial
      exact .combine honest true allStrictSound_zero sound
  | flipBits =>
      have honest : Operator.not.Honest (some false) := trivial
      exact .combine honest true sound allStrictSound_zero
  | isFalse =>
      have honest : Operator.equal.Honest (some true) :=
        fun _ _ _ => Operator.isTruth_of_decides (by simp)
      exact (AllStrictSound.combine honest false sound allStrictSound_zero).wantTruth
  | isTrue =>
      have honest : Operator.notEqual.Honest (some true) :=
        fun _ _ _ => Operator.isTruth_of_decides (by simp)
      exact (AllStrictSound.combine honest false sound allStrictSound_zero).wantTruth

theorem AllStrictSound.level
    {level : Level} {kind : Token.Kind} {operator : Operator}
    (inTable : level ∈ Level.table)
    (found : level.operator? kind = some operator)
    (lhsSound : lhs.AllStrictSound) (rhsSound : rhs.AllStrictSound) :
    (level.combine operator lhs rhs).AllStrictSound := by
  obtain ⟨entry, entryFound, rfl⟩ := Option.map_eq_some_iff.mp found
  have honest :=
    Operator.honest_of_mem inTable (List.mem_of_find?_eq_some entryFound)
  have combined :=
    AllStrictSound.combine honest level.normalizes lhsSound rhsSound
  unfold Level.combine
  dsimp only
  split
  · exact combined.wantTruth
  · exact combined

theorem allStrictSound_call?
    {callable : Callable} {args : List Expr} {result : Expr}
    (sound : ∀ arg ∈ args, arg.AllStrictSound)
    (called : callable.call? args = some result) :
    result.AllStrictSound := by
  unfold Callable.call? at called
  split at called
  · next callee =>
      split at called
      · cases called
        intro node member
        rw [ofCall, nodes, List.mem_cons, mem_nodesAll] at member
        rcases member with rfl | ⟨arg, argMember, inside⟩
        · exact fun isStrict => absurd isStrict Bool.false_ne_true
        · exact sound arg argMember node inside
      · cases called
  · next operator argument =>
      have argumentSound := sound argument List.mem_cons_self
      split at called
      · cases called
        exact argumentSound
      · cases called
        exact
          .combine operator.honest_strictness true argumentSound
            allStrictSound_zero
  · next operator first second =>
      cases called
      exact
        .combine operator.honest_strictness true (sound first (by simp))
          (sound second (by simp))
  · cases called

/-- Reading notes an expression as strict only where its values are truth values. -/
theorem inherited_allStrictSound
    (known : Token → Prop) (functions : List Callee) :
    Inherited functions known AllStrictSound where
  atom _ _ _ :=
    allStrictSound_atom fun isStrict => absurd isStrict Bool.false_ne_true
  combine _ inTable _ _ found _ _ lhsSound rhsSound :=
    .level inTable found lhsSound rhsSound
  unary unary _ sound := sound.unary unary
  load token _ _ index sound := by
    intro node member
    rw [ofLoad, nodes, List.mem_cons] at member
    rcases member with rfl | inside
    · exact fun isStrict => absurd isStrict Bool.false_ne_true
    · exact sound.normalize node inside
  call _ _ _ args sound _ called := by
    refine allStrictSound_call? ?_ called
    intro arg member
    obtain ⟨loose, looseMember, rfl⟩ := List.mem_map.mp member
    exact (sound loose looseMember).normalize

end Expr

/-! ## Programs that were read -/

/-- In a program that was read every strict expression, at any depth, has truth values
only; its value in an environment is one of the values that it can have. -/
theorem strict_expressions_yield_truth_values
    {source : String} {program : Program}
    (read : Program.parse source = .ok program)
    {body : List Stmt} (within : body ∈ program.bodies)
    {expr : Expr} (inside : expr ∈ Stmt.nodesAll body)
    (strict : expr.truth.strict = true) :
    (∀ value, expr.Yields value → IsTruth value) ∧
      ∀ environment, expr.Yields (expr.eval environment) := by
  have formed :
      program.Formed
        (Program.readParts (fun _ => True) fun _ => Expr.AllStrictSound) :=
    Program.formed_of_ofStream
      (Expr.inherited_allStrictSound _) (fun _ _ => trivial) read
  have listed : body ∈ program.main :: program.functions.map Function.body := by
    simpa [Program.bodies, or_comm] using within
  obtain ⟨callees, function, created, bodyFormed⟩ :=
    Program.formed_of_mem_bodies formed listed
  obtain ⟨root, rootMember, member⟩ := Expr.mem_nodesAll.mp inside
  have rootSound : root.AllStrictSound := by
    refine
      Stmt.forall_exprsAll_of_formed ?_ (fun _ condition => condition) body none
        created bodyFormed root rootMember
    rintro _ ⟨loose, looseSound, rfl⟩
    exact looseSound.normalize
  exact
    ⟨rootSound expr member strict,
      fun environment => expr.yields_eval environment⟩

/-- A power of a comparison and a negation, passed through a builtin that is left out,
times a disjunction that has to be compared with zero. -/
theorem strict_expressions_yield_truth_values_of_product :
    ∃ program value,
      Program.parse "x = abs((a < b) ** !c) * (a || b);" = .ok program ∧
        Stmt.exprsAll program.main = [value] ∧ value.truth.strict = true ∧
        ∀ result, value.Yields result → IsTruth result := by
  obtain ⟨program, read, accepted⟩ :=
    Program.exists_of_accepted
      (show ((Program.parse "x = abs((a < b) ** !c) * (a || b);"
        ).toOption.any fun program =>
          decide ((Stmt.exprsAll program.main).length = 1) &&
            (Stmt.exprsAll program.main).all (·.truth.strict)) = true by
        decide +kernel)
  rw [Bool.and_eq_true, decide_eq_true_iff, List.length_eq_one_iff] at accepted
  obtain ⟨⟨value, single⟩, strict⟩ := accepted
  rw [single, List.all_cons, List.all_nil, Bool.and_true] at strict
  have within : program.main ∈ program.bodies := by simp [Program.bodies]
  have inside : value ∈ Stmt.nodesAll program.main := by
    rw [Stmt.nodesAll, single]
    cases value <;> simp [Expr.nodesAll, Expr.nodes]
  exact
    ⟨program, value, read, single, strict,
      (strict_expressions_yield_truth_values read within inside strict).1⟩

end FlatCode
