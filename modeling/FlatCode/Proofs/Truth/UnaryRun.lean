import FlatCode.Proofs.Grammar.CompleteExpr
import FlatCode.Proofs.Truth.Operator
import Mathlib.Data.List.Chain

/-!
# Folded runs of unary operators

The unary operators in front of an operand are folded before any of them is applied:
neighbours that cancel are gone, and `!!` is one test.  What is applied in the end has
the value of all operators applied in turn, the one next to the operand first.

An operator works on the normalized value of its operand, or only asks whether the
operand is zero, which normalizing does not change.  So every operator has a
`meaning` as a function on normalized values, and a run means the composition of its
operators.  Folding keeps the composition at each step.  In particular it does no harm
that two signs which cancel would have normalized a loose operand between them, if the
result is normalized where it is used.

A `Valuation` says as little about the integers as this needs: subtraction, the
complement of all bits, and the two tests for equality are fixed.
-/

namespace FlatCode

open Token (Kind Reads)
open Surface (SignsDerive extendRun nextKind unarySigns)

/-! ## Values of expressions -/

/-- Integers for variables and literals, and the meaning of loads, calls and
operators, of which only those behind the unary operators are fixed. -/
structure Valuation where
  word : String → Int
  /-- The content of a memory cell at an index. -/
  cell : String → Int → Int
  /-- The result of a function for its arguments. -/
  function : Callee → List Int → Int
  operate : Operator → Int → Int → Int
  word_zero : word "0" = 0
  operate_sub : ∀ lhs rhs, operate .sub lhs rhs = lhs - rhs
  operate_not : ∀ value other, operate .not value other = -value - 1
  operate_equal : ∀ lhs rhs, operate .equal lhs rhs = truthValue (lhs = rhs)
  operate_notEqual : ∀ lhs rhs,
    operate .notEqual lhs rhs = truthValue (lhs ≠ rhs)

namespace Valuation

variable (valuation : Valuation)

mutual

@[simp]
def eval : Expr → Int
  | .atom _ text => valuation.word text
  | .binary _ operator lhs rhs =>
      valuation.operate operator (eval lhs) (eval rhs)
  | .call _ callee args => valuation.function callee (evalAll args)
  | .load _ cell index => valuation.cell cell (eval index)

@[simp]
def evalAll : List Expr → List Int
  | [] => []
  | first :: others => eval first :: evalAll others

end

@[simp]
theorem eval_zero : valuation.eval .zero = 0 := by
  rw [Expr.zero, eval]
  exact valuation.word_zero

theorem eval_normalize (expr : Expr) :
    valuation.eval expr.normalize =
      if expr.truth.loose then
        truthValue (valuation.eval expr ≠ 0)
      else
        valuation.eval expr := by
  unfold Expr.normalize
  split
  · rw [eval, eval_zero, operate_notEqual]
  · rfl

/-- Normalizing does not change whether a value is zero. -/
theorem eval_normalize_eq_zero_iff (expr : Expr) :
    valuation.eval expr.normalize = 0 ↔ valuation.eval expr = 0 := by
  rw [eval_normalize]
  split
  · rw [truthValue_eq_zero_iff, not_not]
  · rfl

end Valuation

/-! ## Operators applied in turn -/

namespace Unary

/-- The operation of one sign; a plus sign changes nothing. -/
def applySign (sign : Kind) (operand : Expr) : Expr :=
  match sign with
  | .minus => Unary.negate.apply operand
  | .bitNot => Unary.flipBits.apply operand
  | .logicalNot => Unary.isFalse.apply operand
  | _ => operand

/-- The operations of all signs in front of an operand, one after the other and the
one next to the operand first. -/
def applyInTurn (signs : List Kind) (operand : Expr) : Expr :=
  signs.foldr applySign operand

/-- What an operator does to the normalized value of its operand. -/
def meaning : Unary → Int → Int
  | .negate, value => -value
  | .flipBits, value => -value - 1
  | .isFalse, value => truthValue (value = 0)
  | .isTrue, value => truthValue (value ≠ 0)

def runMeaning (run : List Unary) (value : Int) : Int :=
  run.foldl (fun inner unary => unary.meaning inner) value

theorem runMeaning_cons (first : Unary) (others : List Unary) (value : Int) :
    runMeaning (first :: others) value =
      runMeaning others (first.meaning value) := rfl

def signMeaning (sign : Kind) (value : Int) : Int :=
  match sign with
  | .minus => negate.meaning value
  | .bitNot => flipBits.meaning value
  | .logicalNot => isFalse.meaning value
  | _ => value

variable (valuation : Valuation)

theorem eval_apply (unary : Unary) (operand : Expr) :
    valuation.eval (unary.apply operand).normalize =
      unary.meaning (valuation.eval operand.normalize) := by
  have sameZero := valuation.eval_normalize_eq_zero_iff operand
  cases unary with
  | negate =>
      have applied :
          (negate.apply operand).normalize =
            .binary ⟨false, false⟩ .sub .zero operand.normalize := rfl
      rw [applied, Valuation.eval, Valuation.eval_zero, valuation.operate_sub,
        meaning, Int.zero_sub]
  | flipBits =>
      have applied :
          (flipBits.apply operand).normalize =
            .binary ⟨false, false⟩ .not operand.normalize .zero := rfl
      rw [applied, Valuation.eval, valuation.operate_not, meaning]
  | isFalse =>
      have applied :
          (isFalse.apply operand).normalize =
            .binary ⟨true, true⟩ .equal operand .zero := rfl
      rw [applied, Valuation.eval, Valuation.eval_zero, valuation.operate_equal,
        meaning]
      simp only [sameZero]
  | isTrue =>
      have applied :
          (isTrue.apply operand).normalize =
            .binary ⟨true, true⟩ .notEqual operand .zero := rfl
      rw [applied, Valuation.eval, Valuation.eval_zero,
        valuation.operate_notEqual, meaning]
      simp only [ne_eq, sameZero]

/-- A run applied to an operand has the value that the run means. -/
theorem eval_applyAll (run : List Unary) (operand : Expr) :
    valuation.eval (applyAll run operand).normalize =
      runMeaning run (valuation.eval operand.normalize) := by
  induction run generalizing operand with
  | nil =>
      rfl
  | cons first others inductionHypothesis =>
      rw [runMeaning_cons, ← eval_apply]
      exact inductionHypothesis (first.apply operand)

/-- Signs applied in turn have the value that they mean in turn. -/
theorem eval_applyInTurn (signs : List Kind) (operand : Expr) :
    valuation.eval (applyInTurn signs operand).normalize =
      signs.foldr signMeaning (valuation.eval operand.normalize) := by
  induction signs with
  | nil =>
      rfl
  | cons sign others inductionHypothesis =>
      rw [List.foldr_cons, ← inductionHypothesis]
      show
        valuation.eval (applySign sign (applyInTurn others operand)).normalize =
          _
      unfold applySign signMeaning
      split
      · exact eval_apply valuation .negate _
      · exact eval_apply valuation .flipBits _
      · exact eval_apply valuation .isFalse _
      · rfl

/-! ## Folding keeps the meaning -/

/-- Adding a sign's operator to a run composes their meanings. -/
theorem runMeaning_push
    (run : List Unary) {added : Unary} (single : added ≠ .isTrue) (value : Int) :
    runMeaning (push run added) value =
      runMeaning run (added.meaning value) := by
  -- truth asked for twice is truth, and asked for once more it is falsity again
  have twice : isTrue.meaning value = isFalse.meaning (isFalse.meaning value) := by
    simp [meaning]
  have thrice : isFalse.meaning value = isTrue.meaning (isFalse.meaning value) := by
    by_cases zero : value = 0 <;> simp [meaning, truthValue, zero]
  unfold push
  split
  · rw [runMeaning_cons, runMeaning_cons, twice]
  · rw [runMeaning_cons, runMeaning_cons, ← thrice]
  · next last outer notFalse notTrue =>
      split
      · next same =>
          subst same
          rw [runMeaning_cons]
          congr 1
          cases last with
          | negate => simp [meaning]
          | flipBits => simp only [meaning]; omega
          | isFalse => exact (notFalse rfl rfl).elim
          | isTrue => exact (single rfl).elim
      · rfl
  · rfl

theorem runMeaning_extendRun (run : List Unary) (sign : Kind) (value : Int) :
    runMeaning (extendRun run sign) value =
      runMeaning run (signMeaning sign value) := by
  unfold extendRun extend? signMeaning
  split
  · rfl
  · exact runMeaning_push run (by decide) value
  · exact runMeaning_push run (by decide) value
  · exact runMeaning_push run (by decide) value
  · split <;> first | rfl | contradiction

/-- A folded run means what its signs mean in turn, below the run that they were added
to. -/
theorem runMeaning_foldl (signs : List Kind) (run : List Unary) (value : Int) :
    runMeaning (signs.foldl extendRun run) value =
      runMeaning run (signs.foldr signMeaning value) := by
  induction signs generalizing run with
  | nil =>
      rfl
  | cons sign others inductionHypothesis =>
      rw [List.foldl_cons, inductionHypothesis, runMeaning_extendRun,
        List.foldr_cons]

/-! ## Folded runs have nothing left to fold -/

/-- The operators that ask for the truth of a value. -/
def asksTruth : Unary → Bool
  | .isFalse | .isTrue => true
  | .negate | .flipBits => false

/-- Two operators that can stand next to each other in a folded run: they differ, and
at most one of them asks for truth. -/
def Apart (first second : Unary) : Prop :=
  first ≠ second ∧ ¬ (first.asksTruth = true ∧ second.asksTruth = true)

instance : DecidableRel Apart := fun _ _ =>
  inferInstanceAs (Decidable (_ ∧ ¬ _))

/-- No neighbours in a run can be folded. -/
def Folded (run : List Unary) : Prop :=
  run.IsChain Apart

/-- An operator that asks for truth can take the place of another one. -/
theorem Folded.replace
    {first other : Unary} {outer : List Unary} (folded : Folded (first :: outer))
    (asks : first.asksTruth = true) (otherAsks : other.asksTruth = true) :
    Folded (other :: outer) := by
  obtain ⟨apart, rest⟩ := List.isChain_cons.mp folded
  refine List.isChain_cons.mpr ⟨fun next isNext => ?_, rest⟩
  have quiet : next.asksTruth = false := by
    simpa [asks] using (apart next isNext).2
  constructor
  · rintro rfl
    rw [quiet] at otherAsks
    cases otherAsks
  · simp [quiet]

theorem Folded.push
    {run : List Unary} (folded : Folded run) {added : Unary}
    (single : added ≠ .isTrue) :
    Folded (push run added) := by
  unfold Unary.push
  split
  · exact folded.replace rfl rfl
  · exact folded.replace rfl rfl
  · next last outer notFalse notTrue =>
      split
      · exact (List.isChain_cons.mp folded).2
      · next different =>
          refine List.isChain_cons_cons.mpr ⟨⟨Ne.symm different, ?_⟩, folded⟩
          cases added with
          | negate | flipBits => simp [asksTruth]
          | isTrue => exact (single rfl).elim
          | isFalse =>
              cases last with
              | negate | flipBits => simp [asksTruth]
              | isFalse => exact (different rfl).elim
              | isTrue => exact (notTrue rfl rfl).elim
  · exact .singleton _

theorem Folded.extendRun
    {run : List Unary} (folded : Folded run) (sign : Kind) :
    Folded (extendRun run sign) := by
  unfold Surface.extendRun extend?
  split
  · exact folded
  · exact folded.push (by decide)
  · exact folded.push (by decide)
  · exact folded.push (by decide)
  · exact folded

theorem folded_foldl
    {run : List Unary} (folded : Folded run) (signs : List Kind) :
    Folded (signs.foldl Surface.extendRun run) := by
  induction signs generalizing run with
  | nil =>
      exact folded
  | cons sign others inductionHypothesis =>
      exact inductionHypothesis (folded.extendRun sign)

end Unary

/-! ## Reading a run -/

theorem signsDerive_append
    {signs : List Token} (areSigns : ∀ sign ∈ signs, sign.kind ∈ unarySigns)
    (rest : List Token) :
    SignsDerive (signs.map Token.kind) (signs ++ rest) rest := by
  induction signs with
  | nil =>
      exact .nil rest
  | cons sign others inductionHypothesis =>
      obtain ⟨isSign, othersAre⟩ := List.forall_mem_cons.mp areSigns
      exact .cons isSign (inductionHypothesis othersAre)

namespace Expr

/-- No operand starts with a unary operator. -/
theorem not_sign_of_parseOperand
    {context : Context} {tokens after : List Token} {operand : Expr}
    (read : Reads (parseOperand context tokens) operand after) :
    nextKind tokens ∉ unarySigns := by
  obtain ⟨parsed, read, _, _⟩ := read
  cases tokens with
  | nil =>
      decide
  | cons token rest =>
      intro sign
      rw [Token.nextKind_cons] at sign
      rw [parseOperand] at read
      simp only [unarySigns, List.mem_cons, List.not_mem_nil, or_false] at sign
      rcases sign with kind | kind | kind | kind <;> simp [kind] at read

/-- An operand behind any signs is read with a run that was folded while the signs were
read.  The result has, wherever it is normalized, the value of all operators applied
in turn, the one next to the operand first.  At no time does the run hold two equal
neighbours, or two neighbours that ask for truth. -/
theorem folded_run_keeps_value
    {context : Context} {signs rest after : List Token} {operand : Expr}
    (areSigns : ∀ sign ∈ signs, sign.kind ∈ unarySigns)
    (read : Reads (parseOperand context rest) operand after) :
    ∃ result,
      Reads (parseLevels context [] (signs ++ rest)) result after ∧
        (∀ valuation : Valuation,
          valuation.eval result.normalize =
            valuation.eval
              (Unary.applyInTurn (signs.map Token.kind) operand).normalize) ∧
        ∀ seen, seen <+: signs →
          Unary.Folded (Unary.readRun [] seen).value := by
  have stops := not_sign_of_parseOperand read
  obtain ⟨folded, left⟩ :=
    Surface.readRun_of_signs (signsDerive_append areSigns rest) stops []
  refine
    ⟨Unary.applyAll ((signs.map Token.kind).foldl extendRun []) operand, ?_,
      fun valuation => ?_, ?_⟩
  · rw [← left] at read
    rw [parseLevels]
    apply read.bind
    rintro parsed rfl rfl
    refine ⟨_, rfl, ?_, rfl⟩
    rw [← folded]
    rfl
  · rw [Unary.eval_applyAll, Unary.eval_applyInTurn, Unary.runMeaning_foldl]
    rfl
  · rintro seen ⟨unseen, rfl⟩
    have seenSigns : ∀ sign ∈ seen, sign.kind ∈ unarySigns :=
      fun sign member => areSigns sign (List.mem_append_left _ member)
    have derived := signsDerive_append seenSigns []
    rw [List.append_nil] at derived
    have ended : nextKind [] ∉ unarySigns := by decide
    rw [(Surface.readRun_of_signs derived ended []).1]
    exact Unary.folded_foldl .nil _

/-- All signs cancel, from the inside out, and a loose operand is left as it is. -/
theorem folded_run_keeps_value_of_loose_operand :
    ∃ (operand result : Expr) (after : List Token),
      operand.truth.loose = true ∧
        Reads
          (parseLevels ⟨.ok (Token.endOfInput ⟨2, 1⟩), []⟩ []
            (Token.Stream.ofString "-~+~-(a || b);").tokens)
          result after ∧
        ∀ valuation : Valuation,
          valuation.eval result.normalize =
            valuation.eval
              (Unary.applyInTurn [.minus, .bitNot, .plus, .bitNot, .minus]
                operand).normalize := by
  obtain ⟨parsed, read, loose⟩ :=
    exists_ok_of_any
      (show ((parseOperand ⟨.ok (Token.endOfInput ⟨2, 1⟩), []⟩
          ((Token.Stream.ofString "-~+~-(a || b);").tokens.drop 5)
        ).toOption.any fun parsed => parsed.value.truth.loose) = true by
        decide +kernel)
  have areSigns :
      ∀ sign ∈ (Token.Stream.ofString "-~+~-(a || b);").tokens.take 5,
        sign.kind ∈ unarySigns := by
    decide +kernel
  have kinds :
      ((Token.Stream.ofString "-~+~-(a || b);").tokens.take 5).map Token.kind =
        [.minus, .bitNot, .plus, .bitNot, .minus] := by
    decide +kernel
  obtain ⟨result, resultRead, same, _⟩ :=
    folded_run_keeps_value areSigns ⟨parsed, read, rfl, rfl⟩
  rw [List.take_append_drop] at resultRead
  rw [kinds] at same
  exact ⟨parsed.value, result, parsed.rest, loose, resultRead, same⟩

end Expr

end FlatCode
