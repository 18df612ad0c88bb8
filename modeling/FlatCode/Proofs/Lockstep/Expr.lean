import FlatCode.Expr.Parser
import FlatCode.Proofs.Lockstep.Token

/-!
# Expressions read in step

Two readings of an expression, against contexts with the same functions, go the
same way.  The induction follows the readers on the first of the two lists; the
second list is any list whose tokens agree with it.
-/

namespace FlatCode.Expr

open Token (Pairing Parsed)
open Token.Pairing (accept_twins expect_twins)

/-- Two contexts with the same functions and endings that agree. -/
structure Context.Twins (pairing : Pairing) (first second : Context) : Prop where
  functions : first.functions = second.functions
  endings : pairing.Endings first.ending second.ending

section Readers

variable {pairing : Pairing} {first second : Context}

/-- A name is resolved alike, or it is unknown to both readings. -/
theorem Context.Twins.resolve
    (contexts : Context.Twins pairing first second) {name other : Token}
    (twins : pairing.Twins name other) :
    Concur pairing.Faults Eq (first.resolve name) (second.resolve other) := by
  rw [Context.resolve, Context.resolve, contexts.functions, twins.payload]
  cases Callable.resolve? second.functions other.payload with
  | some callable =>
      exact .ok rfl
  | none =>
      exact .error (twins.found _ nofun)

theorem finishCall_twins
    (callable : Callable) (args : List Expr) {close other : Token}
    (twins : pairing.Twins close other) :
    Concur pairing.Faults Eq (finishCall callable args close)
      (finishCall callable args other) := by
  rw [finishCall, finishCall]
  cases callable.call? args with
  | some call =>
      exact .ok rfl
  | none =>
      exact .error (twins.found _ nofun)

theorem readRun_twins
    (run : List Unary) {tokens others : List Token}
    (twins : List.Forall₂ pairing.Twins tokens others) :
    pairing.Results Eq (Unary.readRun run tokens)
      (Unary.readRun run others) := by
  induction twins generalizing run with
  | nil =>
      exact ⟨rfl, .nil⟩
  | @cons token other rest later same restTwins inductionHypothesis =>
      rw [Unary.readRun, Unary.readRun, same.kind]
      cases Unary.extend? run other.kind with
      | some longer =>
          exact
            ⟨(inductionHypothesis longer).value,
              (inductionHypothesis longer).rest⟩
      | none =>
          exact ⟨rfl, .cons same restTwins⟩

/-! ## One statement for each reader -/

variable (pairing first second)

/-- Expressions of the given levels are read in step. -/
def LevelsAgree (levels : List Level) (tokens : List Token) : Prop :=
  ∀ others, List.Forall₂ pairing.Twins tokens others →
    pairing.Agree Eq (parseLevels first levels tokens)
      (parseLevels second levels others)

/-- The operators behind `lhs` are read in step. -/
def OperatorsAgree
    (level : Level) (tighter : List Level) (lhs : Expr)
    (tokens : List Token) : Prop :=
  ∀ others, List.Forall₂ pairing.Twins tokens others →
    pairing.Agree Eq (parseOperators first level tighter lhs tokens)
      (parseOperators second level tighter lhs others)

def OperandsAgree (tokens : List Token) : Prop :=
  ∀ others, List.Forall₂ pairing.Twins tokens others →
    pairing.Agree Eq (parseOperand first tokens) (parseOperand second others)

def IndicesAgree (cell : String) (tokens : List Token) : Prop :=
  ∀ others, List.Forall₂ pairing.Twins tokens others →
    pairing.Agree Eq (parseIndex first cell tokens)
      (parseIndex second cell others)

def CallsAgree (callable : Callable) (tokens : List Token) : Prop :=
  ∀ others, List.Forall₂ pairing.Twins tokens others →
    pairing.Agree Eq (parseCall first callable tokens)
      (parseCall second callable others)

def ArgumentsAgree (tokens : List Token) : Prop :=
  ∀ others, List.Forall₂ pairing.Twins tokens others →
    pairing.Agree Eq (parseArguments first tokens)
      (parseArguments second others)

variable {pairing first second}

/-! ## One step of each reader -/

theorem levelsAgree_nil
    {tokens : List Token}
    (operandsAgree :
      OperandsAgree pairing first second (Unary.readRun [] tokens).rest) :
    LevelsAgree pairing first second [] tokens := by
  intro others twins
  have runs := readRun_twins [] twins
  rw [parseLevels, parseLevels]
  refine (operandsAgree _ runs.rest).bind fun left right operands => ?_
  refine .ok ⟨?_, operands.rest⟩
  show Unary.applyAll _ left.value = Unary.applyAll _ right.value
  rw [runs.value, operands.value]

theorem levelsAgree_cons
    {level : Level} {tighter : List Level} {tokens : List Token}
    (firstAgree : LevelsAgree pairing first second tighter tokens)
    (othersAgree : ∀ operand : Parsed Expr tokens.length,
      OperatorsAgree pairing first second level tighter
        operand.value operand.rest) :
    LevelsAgree pairing first second (level :: tighter) tokens := by
  intro others twins
  rw [parseLevels, parseLevels]
  refine (firstAgree others twins).bind fun left right operands => ?_
  rw [← operands.value]
  refine
    (othersAgree left right.rest operands.rest).bind fun _ _ whole => ?_
  exact .ok ⟨whole.value, whole.rest⟩

theorem operatorsAgree_nil
    {level : Level} {tighter : List Level} {lhs : Expr}
    (contexts : Context.Twins pairing first second) :
    OperatorsAgree pairing first second level tighter lhs [] := by
  rintro _ ⟨⟩
  rw [parseOperators, parseOperators]
  exact contexts.endings.meet.bind fun _ _ _ => .ok ⟨rfl, .nil⟩

theorem operatorsAgree_stop
    {level : Level} {tighter : List Level} {lhs : Expr} {token : Token}
    {rest : List Token} (foreign : level.operator? token.kind = none) :
    OperatorsAgree pairing first second level tighter lhs (token :: rest) := by
  intro others twins
  obtain ⟨other, later, same, restTwins, rfl⟩ :=
    List.forall₂_cons_left_iff.mp twins
  rw [parseOperators, parseOperators]
  simp only [foreign, same.kind ▸ foreign]
  exact .ok ⟨rfl, twins⟩

theorem operatorsAgree_cons
    {level : Level} {tighter : List Level} {lhs : Expr} {token : Token}
    {rest : List Token} {operator : Operator}
    (own : level.operator? token.kind = some operator)
    (rhsAgree : LevelsAgree pairing first second tighter rest)
    (othersAgree : ∀ rhs : Parsed Expr rest.length,
      OperatorsAgree pairing first second level tighter
        (level.combine operator lhs rhs.value) rhs.rest) :
    OperatorsAgree pairing first second level tighter lhs (token :: rest) := by
  intro others twins
  obtain ⟨other, later, same, restTwins, rfl⟩ :=
    List.forall₂_cons_left_iff.mp twins
  rw [parseOperators, parseOperators]
  simp only [own, same.kind ▸ own]
  refine (rhsAgree later restTwins).bind fun left right operands => ?_
  rw [← operands.value]
  refine
    (othersAgree left right.rest operands.rest).bind fun _ _ whole => ?_
  exact .ok ⟨whole.value, whole.rest⟩

theorem operandsAgree_nil
    (contexts : Context.Twins pairing first second) :
    OperandsAgree pairing first second [] := by
  rintro _ ⟨⟩
  rw [parseOperand, parseOperand]
  exact contexts.endings.meet.bind fun _ _ last => .error (last.found _ (by decide))

theorem operandsAgree_parenthesis
    (contexts : Context.Twins pairing first second)
    {token : Token} {rest : List Token} (opens : token.kind = .lparen)
    (innerAgree : LevelsAgree pairing first second Level.table rest) :
    OperandsAgree pairing first second (token :: rest) := by
  intro others twins
  obtain ⟨other, later, same, restTwins, rfl⟩ :=
    List.forall₂_cons_left_iff.mp twins
  rw [parseOperand, parseOperand]
  simp only [opens, same.kind ▸ opens]
  refine (innerAgree later restTwins).bind fun left right inner => ?_
  refine
    (expect_twins contexts.endings .rparen inner.rest).bind fun _ _ close => ?_
  exact .ok ⟨inner.value, close.rest⟩

theorem operandsAgree_number
    {token : Token} {rest : List Token} (number : token.kind = .number) :
    OperandsAgree pairing first second (token :: rest) := by
  intro others twins
  obtain ⟨other, later, same, restTwins, rfl⟩ :=
    List.forall₂_cons_left_iff.mp twins
  rw [parseOperand, parseOperand]
  simp only [number, same.kind ▸ number]
  exact .ok ⟨congrArg ofText same.payload, restTwins⟩

theorem operandsAgree_identifier
    (contexts : Context.Twins pairing first second)
    {token : Token} {rest : List Token} (identifier : token.kind = .identifier)
    (callsAgree :
      ∀ (opening : Parsed Token rest.length) (callable : Callable),
        CallsAgree pairing first second callable opening.rest)
    (indicesAgree : ∀ opening : Parsed Token rest.length,
      IndicesAgree pairing first second token.payload opening.rest) :
    OperandsAgree pairing first second (token :: rest) := by
  intro others twins
  obtain ⟨other, later, same, restTwins, rfl⟩ :=
    List.forall₂_cons_left_iff.mp twins
  rw [parseOperand, parseOperand]
  simp only [identifier, same.kind ▸ identifier]
  refine
    (accept_twins contexts.endings .lparen restTwins).bind
      fun _ _ parenthesis => ?_
  cases parenthesis with
  | some opening =>
      refine (contexts.resolve same).bind fun callable _ resolved => ?_
      subst resolved
      refine
        (callsAgree _ callable _ opening.rest).bind fun _ _ call => ?_
      exact .ok ⟨call.value, call.rest⟩
  | none =>
      refine
        (accept_twins contexts.endings .lbracket restTwins).bind
          fun _ _ bracket => ?_
      cases bracket with
      | some opening =>
          rw [← same.payload]
          refine (indicesAgree _ _ opening.rest).bind fun _ _ load => ?_
          exact .ok ⟨load.value, load.rest⟩
      | none =>
          exact .ok ⟨congrArg ofText same.payload, restTwins⟩

theorem operandsAgree_other
    {token : Token} {rest : List Token}
    (notParenthesis : token.kind = .lparen → False)
    (notNumber : token.kind = .number → False)
    (notIdentifier : token.kind = .identifier → False) :
    OperandsAgree pairing first second (token :: rest) := by
  intro others twins
  obtain ⟨other, later, same, restTwins, rfl⟩ :=
    List.forall₂_cons_left_iff.mp twins
  rw [parseOperand, parseOperand]
  simp only [same.kind] at notParenthesis notNumber notIdentifier ⊢
  split
  · next opens => exact (notParenthesis opens).elim
  · next number => exact (notNumber number).elim
  · next identifier => exact (notIdentifier identifier).elim
  · exact .error (same.found _ (by decide))

theorem indicesAgree_step
    (contexts : Context.Twins pairing first second)
    {cell : String} {tokens : List Token}
    (innerAgree : LevelsAgree pairing first second Level.table tokens) :
    IndicesAgree pairing first second cell tokens := by
  intro others twins
  rw [parseIndex, parseIndex]
  refine (innerAgree others twins).bind fun left right index => ?_
  refine
    (expect_twins contexts.endings .rbracket index.rest).bind
      fun _ _ close => ?_
  refine .ok ⟨?_, close.rest⟩
  show ofLoad cell left.value.normalize = ofLoad cell right.value.normalize
  rw [index.value]

theorem callsAgree_step
    (contexts : Context.Twins pairing first second)
    {callable : Callable} {tokens : List Token}
    (argumentsAgree : ArgumentsAgree pairing first second tokens) :
    CallsAgree pairing first second callable tokens := by
  intro others twins
  rw [parseCall, parseCall]
  refine
    (accept_twins contexts.endings .rparen twins).bind fun _ _ parenthesis => ?_
  cases parenthesis with
  | some close =>
      refine (finishCall_twins callable [] close.value).bind fun _ _ call => ?_
      exact .ok ⟨call, close.rest⟩
  | none =>
      refine (argumentsAgree others twins).bind fun left right args => ?_
      refine
        (expect_twins contexts.endings .rparen args.rest).bind
          fun _ _ close => ?_
      rw [args.value]
      refine
        (finishCall_twins callable right.value close.value).bind
          fun _ _ call => ?_
      exact .ok ⟨call, close.rest⟩

theorem argumentsAgree_step
    (contexts : Context.Twins pairing first second)
    {tokens : List Token}
    (firstAgree : LevelsAgree pairing first second Level.table tokens)
    (othersAgree :
      ∀ (argument : Parsed Expr tokens.length)
        (comma : Parsed Token argument.rest.length),
        ArgumentsAgree pairing first second comma.rest) :
    ArgumentsAgree pairing first second tokens := by
  intro others twins
  rw [parseArguments, parseArguments]
  refine (firstAgree others twins).bind fun left right argument => ?_
  refine
    (accept_twins contexts.endings .comma argument.rest).bind
      fun _ _ separator => ?_
  cases separator with
  | none =>
      refine .ok ⟨?_, argument.rest⟩
      show [left.value.normalize] = [right.value.normalize]
      rw [argument.value]
  | some comma =>
      refine (othersAgree left _ _ comma.rest).bind fun _ _ later => ?_
      refine .ok ⟨?_, later.rest⟩
      show left.value.normalize :: _ = right.value.normalize :: _
      rw [argument.value, later.value]

/-- Two readings of an expression go the same way. -/
theorem parse_twins
    (contexts : Context.Twins pairing first second) {tokens others : List Token}
    (twins : List.Forall₂ pairing.Twins tokens others) :
    pairing.Agree Eq (parse first tokens) (parse second others) := by
  have readers :=
    parseLevels.mutual_induct
      (LevelsAgree pairing first second)
      (OperatorsAgree pairing first second)
      (OperandsAgree pairing first second)
      (IndicesAgree pairing first second)
      (CallsAgree pairing first second)
      (ArgumentsAgree pairing first second)
      (fun _ => levelsAgree_nil)
      (fun _ _ _ => levelsAgree_cons)
      (fun _ _ _ => operatorsAgree_nil contexts)
      (fun _ _ _ _ _ => operatorsAgree_stop)
      (fun _ _ _ _ _ _ => operatorsAgree_cons)
      (operandsAgree_nil contexts)
      (fun _ _ => operandsAgree_parenthesis contexts)
      (fun _ _ => operandsAgree_number)
      (fun _ _ => operandsAgree_identifier contexts)
      (fun _ _ => operandsAgree_other)
      (fun _ _ => indicesAgree_step contexts)
      (fun _ _ => callsAgree_step contexts)
      (fun _ => argumentsAgree_step contexts)
  exact readers.1 Level.table tokens others twins

end Readers

end FlatCode.Expr
