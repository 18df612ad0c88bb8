import FlatCode.Lowering.Expr
import FlatCode.Proofs.Form

/-!
# The shape of expression code

A value that is computed anywhere goes into the next temporary, so only code that
stores into a given operand has to be looked at: `lower_anywhere_eq_into`.

Such code is `Straight`: it consists of instructions that compute something from
good operands, and of pairs that enter a function and come back behind the jump.
-/

namespace FlatCode

namespace Expr

/-- A variable or a literal. -/
def IsAtom : Expr → Prop
  | .atom _ _ => True
  | .binary .. | .call .. | .load .. => False

section Equations

attribute [local simp] lower Destination.take

theorem lower_anywhere_atom (truth : Truth) (text : String) (temps : Nat) :
    (Expr.atom truth text).lower .anywhere temps = ⟨.word text, [], temps⟩ := by
  simp

theorem lower_anywhere_eq_into
    {expr : Expr} (computed : ¬ expr.IsAtom) (temps : Nat) :
    expr.lower .anywhere temps =
      expr.lower (.into (.temp (temps + 1))) (temps + 1) := by
  cases expr with
  | atom truth text =>
      exact absurd trivial computed
  | binary truth operator lhs rhs =>
      simp
  | call truth callee args =>
      simp
  | load truth cell index =>
      simp

section Into

variable (target : Operand) (temps : Nat) (truth : Truth)

theorem lower_into_atom (text : String) :
    (Expr.atom truth text).lower (.into target) temps =
      ⟨target, storing target (.set target (.word text)), temps⟩ := by
  simp

theorem lower_into_binary (operator : Operator) (lhs rhs : Expr) :
    (Expr.binary truth operator lhs rhs).lower (.into target) temps =
      let left := lhs.lower .anywhere temps
      let right := rhs.lower .anywhere left.temps
      ⟨target,
        left.code ++ (right.code ++
          storing target (.op operator target left.operand right.operand)),
        right.temps⟩ := by
  simp

theorem lower_into_call (callee : Callee) (args : List Expr) :
    (Expr.call truth callee args).lower (.into target) temps =
      let passed := lowerArguments temps args
      ⟨target,
        passed.code ++ (callee.passArguments passed.operands ++
          (callee.enter ++
            storing target (.set target (.result callee.name)))),
        passed.temps⟩ := by
  simp

theorem lower_into_load (cell : String) (index : Expr) :
    (Expr.load truth cell index).lower (.into target) temps =
      let place := index.lower .anywhere temps
      ⟨target,
        place.code ++ storing target (.read target (.word cell) place.operand),
        place.temps⟩ := by
  simp

end Into

end Equations

/-- An expression is a comparison, which has a complement, or it is none. -/
theorem comparison_cases (expr : Expr) :
    (∃ truth operator other lhs rhs,
      expr = .binary truth operator lhs rhs ∧
        operator.complement? = some other) ∨
      expr.comparison? = none := by
  cases expr with
  | binary truth operator lhs rhs =>
      cases complement : operator.complement? with
      | none =>
          exact Or.inr (by simp [comparison?, Operator.isComparison, complement])
      | some other =>
          exact Or.inl ⟨truth, operator, other, lhs, rhs, rfl, complement⟩
  | atom | call | load =>
      exact Or.inr rfl

section Conditions

variable (target : Label) (inverted : Bool) (temps : Nat)

/-- A comparison is tested by the jump, with the complement if the jump is
inverted. -/
theorem lowerCondition_comparison
    {operator other : Operator}
    (complemented : operator.complement? = some other)
    (truth : Truth) (lhs rhs : Expr) :
    (Expr.binary truth operator lhs rhs).lowerCondition target inverted temps =
      let left := lhs.lower .anywhere temps
      let right := rhs.lower .anywhere left.temps
      (left.code ++ (right.code ++
          [.jump target
            (.compare (if inverted then other else operator) left.operand
              right.operand)]),
        right.temps) := by
  simp [lowerCondition, comparison?, Operator.isComparison, complemented]

/-- An expression that is no comparison is tested by comparing its value with
zero. -/
theorem lowerCondition_value
    {expr : Expr} (plain : expr.comparison? = none) :
    expr.lowerCondition target inverted temps =
      let value := expr.lower .anywhere temps
      (value.code ++
          [.jump target
            (.compare (if inverted then .equal else .notEqual) value.operand
              (.word "0"))],
        value.temps) := by
  cases expr <;> simp [lowerCondition, plain]

end Conditions

/-- A comparison is tested by the complementary jump, and every other expression
by a jump that compares its value with zero. -/
theorem lowerCondition_cases (expr : Expr) (target : Label) (temps : Nat) :
    (∃ truth operator other lhs rhs,
      expr = .binary truth operator lhs rhs ∧
        operator.complement? = some other ∧
        expr.lowerCondition target true temps =
          let left := lhs.lower .anywhere temps
          let right := rhs.lower .anywhere left.temps
          (left.code ++ (right.code ++
              [.jump target (.compare other left.operand right.operand)]),
            right.temps)) ∨
      expr.lowerCondition target true temps =
        let value := expr.lower .anywhere temps
        (value.code ++
            [.jump target (.compare .equal value.operand (.word "0"))],
          value.temps) := by
  rcases comparison_cases expr with comparison | plain
  · obtain ⟨truth, operator, other, lhs, rhs, rfl, complemented⟩ := comparison
    exact
      Or.inl
        ⟨truth, operator, other, lhs, rhs, rfl, complemented,
          lowerCondition_comparison target true temps complemented ..⟩
  · exact Or.inr (lowerCondition_value target true temps plain)

@[simp]
theorem operand_lower_into (expr : Expr) (target : Operand) (temps : Nat) :
    (expr.lower (.into target) temps).operand = target := by
  cases expr <;> simp [lower, Destination.take]

/-! ## Temporaries are taken in order -/

theorem temps_le_lowerArguments
    {args : List Expr} (temps : Nat)
    (ordered : ∀ arg ∈ args, ∀ target temps,
      temps ≤ (arg.lower (.into target) temps).temps) :
    temps ≤ (lowerArguments temps args).temps := by
  induction args generalizing temps with
  | nil =>
      simp [lowerArguments]
  | cons first others inductionHypothesis =>
      obtain ⟨firstOrdered, othersOrdered⟩ := List.forall_mem_cons.mp ordered
      simp only [lowerArguments]
      have taken := firstOrdered (.temp (temps + 1)) (temps + 1)
      have later :=
        inductionHypothesis
          (first.lower (.into (.temp (temps + 1))) (temps + 1)).temps
          othersOrdered
      omega

theorem temps_le_anywhere
    {expr : Expr} (temps : Nat)
    (ordered : ∀ target temps,
      temps ≤ (expr.lower (.into target) temps).temps) :
    temps ≤ (expr.lower .anywhere temps).temps := by
  by_cases atom : expr.IsAtom
  · cases expr <;> simp_all [IsAtom, lower]
  · rw [lower_anywhere_eq_into atom]
    exact Nat.le_of_succ_le (ordered (.temp (temps + 1)) (temps + 1))

theorem temps_le_into (expr : Expr) (target : Operand) (temps : Nat) :
    temps ≤ (expr.lower (.into target) temps).temps := by
  induction expr generalizing target temps with
  | atom truth text =>
      simp [lower_into_atom]
  | binary truth operator lhs rhs lhsOrdered rhsOrdered =>
      rw [lower_into_binary]
      exact
        Nat.le_trans (temps_le_anywhere temps lhsOrdered)
          (temps_le_anywhere _ rhsOrdered)
  | call truth callee args argsOrdered =>
      rw [lower_into_call]
      exact temps_le_lowerArguments temps argsOrdered
  | load truth cell index indexOrdered =>
      rw [lower_into_load]
      exact temps_le_anywhere temps indexOrdered

theorem temps_le_lower
    (expr : Expr) (destination : Destination) (temps : Nat) :
    temps ≤ (expr.lower destination temps).temps := by
  cases destination with
  | anywhere =>
      exact temps_le_anywhere temps (temps_le_into expr)
  | into target =>
      exact temps_le_into expr target temps

theorem temps_le_lowerCondition
    (expr : Expr) (target : Label) (inverted : Bool) (temps : Nat) :
    temps ≤ (expr.lowerCondition target inverted temps).2 := by
  unfold lowerCondition
  split
  · exact
      Nat.le_trans (temps_le_lower _ .anywhere temps)
        (temps_le_lower _ .anywhere _)
  · exact temps_le_lower _ .anywhere temps

end Expr

/-! ## Straight code -/

/-- Whether an instruction computes something and goes on behind itself, and all
its operands are good. -/
def Instruction.Computes (good : Operand → Prop) : Instruction → Prop
  | .set target value => good target ∧ good value
  | .op _ target lhs rhs => good target ∧ good lhs ∧ good rhs
  | .read target cell index => good target ∧ good cell ∧ good index
  | .write value cell index => good value ∧ good cell ∧ good index
  | .jump .. | .raw _ | .halt | .noop => False

/-- Code of expressions: instructions that compute something, and pairs that
enter one of the given functions. -/
inductive Straight (good : Operand → Prop) (functions : List Callee) :
    List Instruction → Prop
  | nil : Straight good functions []
  | cons {instruction : Instruction} {rest : List Instruction} :
      instruction.Computes good → Straight good functions rest →
        Straight good functions (instruction :: rest)
  | enter {callee : Callee} {rest : List Instruction} :
      callee ∈ functions → Straight good functions rest →
        Straight good functions (callee.enter ++ rest)

namespace Straight

variable {good : Operand → Prop} {functions : List Callee}
  {first second : List Instruction}

theorem append
    (straight : Straight good functions first)
    (rest : Straight good functions second) :
    Straight good functions (first ++ second) := by
  induction straight with
  | nil =>
      exact rest
  | cons computes _ inductionHypothesis =>
      exact .cons computes inductionHypothesis
  | enter member _ inductionHypothesis =>
      rw [List.append_assoc]
      exact .enter member inductionHypothesis

theorem of_forall
    {code : List Instruction}
    (computes : ∀ instruction ∈ code, instruction.Computes good) :
    Straight good functions code := by
  induction code with
  | nil =>
      exact .nil
  | cons head tail inductionHypothesis =>
      obtain ⟨headComputes, tailComputes⟩ := List.forall_mem_cons.mp computes
      exact .cons headComputes (inductionHypothesis tailComputes)

theorem storing
    {target : Operand} {instruction : Instruction}
    (computes : instruction.Computes good) :
    Straight good functions (FlatCode.storing target instruction) := by
  unfold FlatCode.storing
  split
  · exact .nil
  · exact .cons computes .nil

theorem passArguments
    {callee : Callee} {values : List Operand}
    (params : ∀ param ∈ callee.params, good (.word param))
    (valuesGood : ∀ value ∈ values, good value) :
    Straight good functions (callee.passArguments values) := by
  apply of_forall
  intro instruction member
  obtain ⟨position, bound, rfl⟩ := List.getElem_of_mem member
  simp only [Callee.passArguments, List.getElem_zipWith]
  exact
    ⟨params _ (List.getElem_mem _), valuesGood _ (List.getElem_mem _)⟩

end Straight

namespace Expr

variable {good : Operand → Prop} {functions : List Callee}

/-- The operands that expression code uses apart from the words of the
expression. -/
structure Allows (good : Operand → Prop) (functions : List Callee) :
    Prop where
  temp : ∀ number, good (.temp number)
  result : ∀ callee ∈ functions, good (.result callee.name)
  param : ∀ callee ∈ functions, ∀ param ∈ callee.params, good (.word param)

theorem good_operand
    {expr : Expr} (allows : Allows good functions)
    (words : ∀ word ∈ expr.words, good (.word word)) (temps : Nat) :
    good (expr.lower .anywhere temps).operand := by
  by_cases atom : expr.IsAtom
  · cases expr with
    | atom truth text =>
        rw [lower_anywhere_atom]
        exact words text (by simp [Expr.words])
    | binary | call | load =>
        exact atom.elim
  · rw [lower_anywhere_eq_into atom, operand_lower_into]
    exact allows.temp _

theorem good_lowerArguments
    (allows : Allows good functions) (temps : Nat) (args : List Expr) :
    ∀ operand ∈ (lowerArguments temps args).operands, good operand := by
  induction args generalizing temps with
  | nil =>
      simp [lowerArguments]
  | cons first others inductionHypothesis =>
      simp only [lowerArguments, operand_lower_into]
      exact
        List.forall_mem_cons.mpr
          ⟨allows.temp _, inductionHypothesis _⟩

theorem straight_anywhere
    {expr : Expr} (allows : Allows good functions) (temps : Nat)
    (straight : ∀ target temps, good target →
      Straight good functions (expr.lower (.into target) temps).code) :
    Straight good functions (expr.lower .anywhere temps).code := by
  by_cases atom : expr.IsAtom
  · cases expr with
    | atom truth text =>
        rw [lower_anywhere_atom]
        exact .nil
    | binary | call | load =>
        exact atom.elim
  · rw [lower_anywhere_eq_into atom]
    exact straight _ _ (allows.temp _)

theorem straight_lowerArguments
    {args : List Expr} (allows : Allows good functions) (temps : Nat)
    (straight : ∀ arg ∈ args, ∀ target temps, good target →
      Straight good functions (arg.lower (.into target) temps).code) :
    Straight good functions (lowerArguments temps args).code := by
  induction args generalizing temps with
  | nil =>
      simp only [lowerArguments]
      exact .nil
  | cons first others inductionHypothesis =>
      obtain ⟨firstStraight, othersStraight⟩ :=
        List.forall_mem_cons.mp straight
      simp only [lowerArguments]
      exact
        (firstStraight _ _ (allows.temp _)).append
          (inductionHypothesis _ othersStraight)

theorem straight_into
    {expr : Expr} (allows : Allows good functions)
    (linked : expr.Linked functions)
    (words : ∀ word ∈ expr.words, good (.word word))
    {target : Operand} (temps : Nat) (allowed : good target) :
    Straight good functions (expr.lower (.into target) temps).code := by
  induction expr generalizing target temps with
  | atom truth text =>
      rw [lower_into_atom]
      exact Straight.storing ⟨allowed, words text (by simp [Expr.words])⟩
  | binary truth operator lhs rhs lhsStraight rhsStraight =>
      rw [lower_into_binary]
      simp only [Expr.words, List.forall_mem_append] at words
      have left :=
        straight_anywhere allows temps fun _ temps allowed =>
          lhsStraight linked.1 words.1 temps allowed
      have right :=
        straight_anywhere allows (lhs.lower .anywhere temps).temps
          fun _ temps allowed => rhsStraight linked.2 words.2 temps allowed
      have operands :=
        And.intro (good_operand allows words.1 temps)
          (good_operand allows words.2 (lhs.lower .anywhere temps).temps)
      exact left.append (right.append (Straight.storing ⟨allowed, operands⟩))
  | call truth callee args argsStraight =>
      rw [lower_into_call]
      obtain ⟨member, _, argsLinked⟩ := linked
      rw [linkedAll_iff] at argsLinked
      rw [Expr.words] at words
      have passed :=
        straight_lowerArguments allows temps
          fun arg argMember _ temps allowed =>
            argsStraight arg argMember (argsLinked arg argMember)
              (fun word inside =>
                words word (mem_wordsAll.mpr ⟨arg, argMember, inside⟩))
              temps allowed
      have params :
          Straight good functions
            (callee.passArguments (lowerArguments temps args).operands) :=
        Straight.passArguments (allows.param callee member)
          (good_lowerArguments allows temps args)
      have stored := And.intro allowed (allows.result callee member)
      exact
        passed.append
          (params.append (.enter member (Straight.storing stored)))
  | load truth cell index indexStraight =>
      rw [lower_into_load]
      simp only [Expr.words, List.forall_mem_cons] at words
      have place :=
        straight_anywhere allows temps fun _ temps allowed =>
          indexStraight linked words.2 temps allowed
      have operands :=
        And.intro words.1 (good_operand allows words.2 temps)
      exact place.append (Straight.storing ⟨allowed, operands⟩)

theorem straight_lower_anywhere
    {expr : Expr} (allows : Allows good functions)
    (linked : expr.Linked functions)
    (words : ∀ word ∈ expr.words, good (.word word)) (temps : Nat) :
    Straight good functions (expr.lower .anywhere temps).code :=
  straight_anywhere allows temps fun _ temps allowed =>
    straight_into allows linked words temps allowed

/-- The code of a condition is straight up to its last instruction, which is the
one conditional jump. -/
theorem straight_lowerCondition
    {expr : Expr} (allows : Allows good functions)
    (linked : expr.Linked functions)
    (words : ∀ word ∈ expr.words, good (.word word))
    (zero : good (.word "0")) (target : Label) (temps : Nat) :
    ∃ before operator lhs rhs,
      (expr.lowerCondition target true temps).1 =
          before ++ [.jump target (.compare operator lhs rhs)] ∧
        Straight good functions before ∧ good lhs ∧ good rhs := by
  rcases lowerCondition_cases expr target temps with
    ⟨truth, operator, other, lhs, rhs, rfl, _, shape⟩ | shape
  · simp only [Expr.words, List.forall_mem_append] at words
    rw [shape]
    refine ⟨_, _, _, _, (List.append_assoc ..).symm, ?_, ?_, ?_⟩
    · exact
        (straight_lower_anywhere allows linked.1 words.1 temps).append
          (straight_lower_anywhere allows linked.2 words.2 _)
    · exact good_operand allows words.1 temps
    · exact good_operand allows words.2 _
  · rw [shape]
    exact
      ⟨_, _, _, _, rfl, straight_lower_anywhere allows linked words temps,
        good_operand allows words temps, zero⟩

end Expr

end FlatCode
