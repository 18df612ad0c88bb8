import FlatCode.Proofs.Reading.Program

/-!
# Calls of a program that was read

A name is resolved when it is read, and only functions above can be found, so
every call of a program that was read goes to a function above it.  Its arguments
were counted at the closing parenthesis.

`Program.WellFormed` is the form of a program that was read, with this as the
property of its expressions.
-/

namespace FlatCode

namespace Expr

variable {functions : List Callee}

@[simp]
theorem linked_withTruth (truth : Truth) (expr : Expr) :
    (expr.withTruth truth).Linked functions ↔ expr.Linked functions := by
  cases expr <;> simp [Linked]

@[simp]
theorem linked_wantTruth (expr : Expr) :
    expr.wantTruth.Linked functions ↔ expr.Linked functions :=
  linked_withTruth _ expr

@[simp]
theorem linked_zero : zero.Linked functions := trivial

@[simp]
theorem linked_normalize (expr : Expr) :
    expr.normalize.Linked functions ↔ expr.Linked functions := by
  unfold normalize
  split <;> simp [Linked]

@[simp]
theorem linked_combine
    (operator : Operator) (strict : Option Bool) (normalizes : Bool)
    (lhs rhs : Expr) :
    (combine operator strict normalizes lhs rhs).Linked functions ↔
      lhs.Linked functions ∧ rhs.Linked functions := by
  unfold combine
  split <;> simp [apply, Linked]

theorem linked_unary
    (unary : Unary) {operand : Expr} (linked : operand.Linked functions) :
    (Unary.apply unary operand).Linked functions := by
  cases unary <;> simp [Unary.apply, linked]

theorem mem_of_resolve?
    {name : String} {callee : Callee}
    (resolved :
      Callable.resolve? functions name = some (.function callee)) :
    callee ∈ functions := by
  unfold Callable.resolve? at resolved
  split at resolved
  · next found =>
      cases resolved
      exact List.mem_of_find?_eq_some found
  · -- A builtin is never a function of the program.
    obtain ⟨entry, found, same⟩ := Option.map_eq_some_iff.mp resolved
    have member : entry ∈ Callable.builtins := List.mem_of_find?_eq_some found
    have foreign :
        ∀ entry ∈ Callable.builtins, entry.2 ≠ .function callee := by
      simp [Callable.builtins]
    exact absurd same (foreign entry member)

theorem linked_call?
    {name : String} {callable : Callable} {args : List Expr} {result : Expr}
    (resolved : Callable.resolve? functions name = some callable)
    (linked : ∀ arg ∈ args, arg.Linked functions)
    (called : callable.call? args = some result) :
    result.Linked functions := by
  unfold Callable.call? at called
  split at called
  · next callee =>
      split at called
      · next fits =>
          cases called
          exact ⟨mem_of_resolve? resolved, fits, linkedAll_iff.mpr linked⟩
      · cases called
  · next argument =>
      have argumentLinked := linked argument List.mem_cons_self
      split at called
      · cases called
        exact argumentLinked
      · cases called
        simp [argumentLinked]
  · next first second =>
      cases called
      simp [linked first, linked second]
  · cases called

/-- Reading links every call to a function in reach. -/
theorem inherited_linked (known : Token → Prop) (functions : List Callee) :
    Inherited functions known (Linked functions) where
  atom _ _ _ := trivial
  combine level _ kind operator _ lhs rhs lhsLinked rhsLinked := by
    unfold Level.combine
    dsimp only
    split <;> simp [lhsLinked, rhsLinked]
  unary unary _ linked := linked_unary unary linked
  load _ _ _ index linked := (linked_normalize index).mpr linked
  call name callable resolved args linked result called := by
    refine linked_call? resolved ?_ called
    intro arg member
    obtain ⟨loose, looseMember, rfl⟩ := List.mem_map.mp member
    exact (linked_normalize loose).mpr (linked loose looseMember)

end Expr

namespace Program

def linkedParts (functions : List Callee) (function : Option String) :
    Stmt.Parts :=
  readParts (fun _ => True) Expr.Linked functions function

/-- The form of a program that was read. -/
def WellFormed (program : Program) : Prop :=
  program.Formed linkedParts

theorem linked_of_value
    {functions : List Callee} {function : Option String} {expr : Expr}
    (value : (linkedParts functions function).value expr) :
    expr.Linked functions := by
  obtain ⟨loose, linked, rfl⟩ := value
  exact (Expr.linked_normalize loose).mpr linked

theorem wellFormed_of_parse
    {source : String} {program : Program}
    (read : parse source = .ok program) :
    program.WellFormed :=
  formed_of_ofStream (Expr.inherited_linked _) (fun _ _ => trivial) read

end Program

end FlatCode
