import FlatCode.Proofs.Lockstep.Expr
import FlatCode.Stmt.Parser

/-!
# Statements read in step

Two readings of statements go the same way when they stand in the same function
and the same loop.  Labels are numbered while statements are read, so the numbers
are part of what both readings give.
-/

namespace FlatCode.Stmt

open Token (Pairing Parsed)
open Token.Pairing (accept_twins expect_twins peek_twins)

/-- Two scopes that differ at most in what stands behind the last token. -/
structure Scope.Twins (pairing : Pairing) (first second : Scope) : Prop where
  expressions :
    Expr.Context.Twins pairing first.expressions second.expressions
  function : first.function = second.function
  loop : first.loop = second.loop

section Readers

variable {pairing : Pairing} {first second : Scope}
  {tokens others : List Token}

theorem Scope.Twins.endings (scopes : Scope.Twins pairing first second) :
    pairing.Endings first.ending second.ending :=
  scopes.expressions.endings

theorem Scope.Twins.inLoop
    (scopes : Scope.Twins pairing first second) (labels : LoopLabels) :
    Scope.Twins pairing { first with loop := some labels }
      { second with loop := some labels } :=
  ⟨scopes.expressions, scopes.function, rfl⟩

theorem skipSemicolon_twins
    {α : Type} {limit other : Nat} {left : Parsed α limit}
    {right : Parsed α other} (scopes : Scope.Twins pairing first second)
    (results : pairing.Results Eq left right) :
    pairing.Agree Eq (skipSemicolon first left) (skipSemicolon second right) := by
  rw [skipSemicolon, skipSemicolon]
  refine
    (accept_twins scopes.endings .semicolon results.rest).bind
      fun _ _ semicolon => ?_
  cases semicolon with
  | none =>
      exact .ok results
  | some taken =>
      exact .ok ⟨results.value, taken.rest⟩

theorem parseValue_twins
    (scopes : Scope.Twins pairing first second)
    (twins : List.Forall₂ pairing.Twins tokens others) :
    pairing.Agree Eq (parseValue first tokens) (parseValue second others) := by
  refine (Expr.parse_twins scopes.expressions twins).bind fun _ _ value => ?_
  exact .ok ⟨congrArg Expr.normalize value.value, value.rest⟩

theorem parseCondition_twins
    (scopes : Scope.Twins pairing first second)
    (twins : List.Forall₂ pairing.Twins tokens others) :
    pairing.Agree Eq (parseCondition first tokens)
      (parseCondition second others) := by
  refine
    (expect_twins scopes.endings .lparen twins).bind fun _ _ opening => ?_
  refine
    (Expr.parse_twins scopes.expressions opening.rest).bind
      fun _ _ condition => ?_
  refine
    (expect_twins scopes.endings .rparen condition.rest).bind
      fun _ _ close => ?_
  exact .ok ⟨condition.value, close.rest⟩

theorem parseAssigned_twins
    (scopes : Scope.Twins pairing first second)
    (twins : List.Forall₂ pairing.Twins tokens others) :
    pairing.Agree Eq (parseAssigned first tokens)
      (parseAssigned second others) := by
  refine (expect_twins scopes.endings .assign twins).bind fun _ _ sign => ?_
  refine (parseValue_twins scopes sign.rest).bind fun _ _ value => ?_
  exact .ok ⟨value.value, value.rest⟩

theorem parseAssignment_twins
    (scopes : Scope.Twins pairing first second) (target : String)
    (twins : List.Forall₂ pairing.Twins tokens others) :
    pairing.Agree Eq (parseAssignment first target tokens)
      (parseAssignment second target others) := by
  refine
    (accept_twins scopes.endings .lbracket twins).bind fun _ _ bracket => ?_
  cases bracket with
  | none =>
      refine (parseAssigned_twins scopes twins).bind fun _ _ value => ?_
      exact .ok ⟨congrArg (Stmt.assign target) value.value, value.rest⟩
  | some opening =>
      refine
        (parseValue_twins scopes opening.rest).bind
          fun leftIndex rightIndex index => ?_
      refine
        (expect_twins scopes.endings .rbracket index.rest).bind
          fun _ _ close => ?_
      refine
        (parseAssigned_twins scopes close.rest).bind
          fun leftValue rightValue value => ?_
      refine .ok ⟨?_, value.rest⟩
      show
        Stmt.store target leftIndex.value leftValue.value =
          Stmt.store target rightIndex.value rightValue.value
      rw [index.value, value.value]

theorem parseReturn_twins
    (scopes : Scope.Twins pairing first second) {word other : Token}
    (words : pairing.Twins word other)
    (twins : List.Forall₂ pairing.Twins tokens others) :
    pairing.Agree Eq (parseReturn first word tokens)
      (parseReturn second other others) := by
  rw [parseReturn, parseReturn, scopes.function]
  cases second.function with
  | none =>
      exact .error (words.found _ nofun)
  | some function =>
      refine (peek_twins scopes.endings twins).bind fun _ next nexts => ?_
      rw [nexts.kind]
      by_cases valued : startsResult next.kind = true
      · simp only [valued, if_true]
        refine (parseValue_twins scopes twins).bind fun _ _ value => ?_
        refine .ok ⟨?_, value.rest⟩
        exact congrArg (fun result => Stmt.ret function (some result)) value.value
      · simp only [valued]
        exact .ok ⟨rfl, twins⟩

theorem enclosingLoop_twins
    (scopes : Scope.Twins pairing first second) {word other : Token}
    (words : pairing.Twins word other) :
    Concur pairing.Faults Eq (enclosingLoop first word)
      (enclosingLoop second other) := by
  rw [enclosingLoop, enclosingLoop, scopes.loop]
  cases second.loop with
  | none =>
      exact .error (words.found _ nofun)
  | some labels =>
      exact .ok rfl

/-! ## One statement for each reader -/

variable (pairing)

def StmtAgrees (scope : Scope) (created : Nat) (tokens : List Token) : Prop :=
  ∀ other others, Scope.Twins pairing scope other →
    List.Forall₂ pairing.Twins tokens others →
      pairing.Agree Eq (parse scope created tokens)
        (parse other created others)

def StmtsAgree (scope : Scope) (created : Nat) (tokens : List Token) : Prop :=
  ∀ other others, Scope.Twins pairing scope other →
    List.Forall₂ pairing.Twins tokens others →
      pairing.Agree Eq (parseMany scope created tokens)
        (parseMany other created others)

/-! ## One step of each reader -/

variable {pairing} {scope : Scope} {created : Nat} {token : Token}
  {rest : List Token}

theorem stmtAgrees_nil : StmtAgrees pairing scope created [] := by
  rintro other _ scopes ⟨⟩
  rw [parse, parse]
  exact scopes.endings.meet.bind fun _ _ last => .error (last.found _ (by decide))

theorem stmtAgrees_assignment (identifier : token.kind = .identifier) :
    StmtAgrees pairing scope created (token :: rest) := by
  intro other others scopes twins
  obtain ⟨next, later, same, restTwins, rfl⟩ :=
    List.forall₂_cons_left_iff.mp twins
  rw [parse, parse]
  simp only [identifier, same.kind ▸ identifier, same.payload]
  refine
    (parseAssignment_twins scopes next.payload restTwins).bind
      fun _ _ stmt => ?_
  refine (skipSemicolon_twins scopes stmt).bind fun _ _ ended => ?_
  exact .ok ⟨congrArg (·, created) ended.value, ended.rest⟩

theorem stmtAgrees_if
    (word : token.kind = .kwIf)
    (thenAgrees : ∀ condition : Parsed Expr rest.length,
      StmtAgrees pairing scope created condition.rest)
    (elseAgrees :
      ∀ (condition : Parsed Expr rest.length)
        (thenBranch : Parsed (Numbered Stmt) condition.rest.length)
        (between : Parsed Token thenBranch.rest.length),
        StmtAgrees pairing scope thenBranch.value.2 between.rest) :
    StmtAgrees pairing scope created (token :: rest) := by
  intro other others scopes twins
  obtain ⟨next, later, same, restTwins, rfl⟩ :=
    List.forall₂_cons_left_iff.mp twins
  rw [parse, parse]
  simp only [word, same.kind ▸ word]
  refine
    (parseCondition_twins scopes restTwins).bind
      fun leftCondition rightCondition condition => ?_
  refine
    (thenAgrees leftCondition other _ scopes condition.rest).bind
      fun leftThen rightThen thenBranch => ?_
  refine
    (accept_twins scopes.endings .kwElse thenBranch.rest).bind
      fun _ _ between => ?_
  cases between with
  | none =>
      refine .ok ⟨?_, thenBranch.rest⟩
      show
        (Stmt.ifThen leftCondition.value leftThen.value.1, leftThen.value.2) =
          (Stmt.ifThen rightCondition.value rightThen.value.1,
            rightThen.value.2)
      rw [condition.value, thenBranch.value]
  | some taken =>
      rw [← thenBranch.value]
      refine
        (elseAgrees leftCondition leftThen _ other _ scopes taken.rest).bind
          fun leftElse rightElse elseBranch => ?_
      refine .ok ⟨?_, elseBranch.rest⟩
      show
        (Stmt.ifElse leftCondition.value _ leftElse.value.1,
            leftElse.value.2) =
          (Stmt.ifElse rightCondition.value _ rightElse.value.1,
            rightElse.value.2)
      rw [condition.value, elseBranch.value]

theorem stmtAgrees_while
    (word : token.kind = .kwWhile)
    (bodyAgrees : ∀ condition : Parsed Expr rest.length,
      StmtAgrees pairing
        { scope with loop := some ⟨⟨created⟩, ⟨created + 1⟩⟩ } (created + 2)
        condition.rest) :
    StmtAgrees pairing scope created (token :: rest) := by
  intro other others scopes twins
  obtain ⟨next, later, same, restTwins, rfl⟩ :=
    List.forall₂_cons_left_iff.mp twins
  rw [parse, parse]
  simp only [word, same.kind ▸ word]
  refine
    (parseCondition_twins scopes restTwins).bind
      fun leftCondition rightCondition condition => ?_
  refine
    (bodyAgrees leftCondition _ _ (scopes.inLoop _) condition.rest).bind
      fun leftBody rightBody body => ?_
  refine .ok ⟨?_, body.rest⟩
  show
    (Stmt.loop _ _ leftCondition.value leftBody.value.1, leftBody.value.2) =
      (Stmt.loop _ _ rightCondition.value rightBody.value.1,
        rightBody.value.2)
  rw [condition.value, body.value]

theorem stmtAgrees_return (word : token.kind = .kwReturn) :
    StmtAgrees pairing scope created (token :: rest) := by
  intro other others scopes twins
  obtain ⟨next, later, same, restTwins, rfl⟩ :=
    List.forall₂_cons_left_iff.mp twins
  rw [parse, parse]
  simp only [word, same.kind ▸ word]
  refine (parseReturn_twins scopes same restTwins).bind fun _ _ stmt => ?_
  refine (skipSemicolon_twins scopes stmt).bind fun _ _ ended => ?_
  exact .ok ⟨congrArg (·, created) ended.value, ended.rest⟩

theorem stmtAgrees_break (word : token.kind = .kwBreak) :
    StmtAgrees pairing scope created (token :: rest) := by
  intro other others scopes twins
  obtain ⟨next, later, same, restTwins, rfl⟩ :=
    List.forall₂_cons_left_iff.mp twins
  rw [parse, parse]
  simp only [word, same.kind ▸ word]
  refine (enclosingLoop_twins scopes same).bind fun labels _ found => ?_
  subst found
  exact skipSemicolon_twins scopes ⟨rfl, restTwins⟩

theorem stmtAgrees_continue (word : token.kind = .kwContinue) :
    StmtAgrees pairing scope created (token :: rest) := by
  intro other others scopes twins
  obtain ⟨next, later, same, restTwins, rfl⟩ :=
    List.forall₂_cons_left_iff.mp twins
  rw [parse, parse]
  simp only [word, same.kind ▸ word]
  refine (enclosingLoop_twins scopes same).bind fun labels _ found => ?_
  subst found
  exact skipSemicolon_twins scopes ⟨rfl, restTwins⟩

theorem stmtAgrees_raw (word : token.kind = .raw) :
    StmtAgrees pairing scope created (token :: rest) := by
  intro other others scopes twins
  obtain ⟨next, later, same, restTwins, rfl⟩ :=
    List.forall₂_cons_left_iff.mp twins
  rw [parse, parse]
  simp only [word, same.kind ▸ word, same.payload]
  exact .ok ⟨rfl, restTwins⟩

theorem stmtAgrees_block
    (word : token.kind = .lbrace)
    (bodyAgrees : StmtsAgree pairing scope created rest) :
    StmtAgrees pairing scope created (token :: rest) := by
  intro other others scopes twins
  obtain ⟨next, later, same, restTwins, rfl⟩ :=
    List.forall₂_cons_left_iff.mp twins
  rw [parse, parse]
  simp only [word, same.kind ▸ word]
  refine
    (bodyAgrees other later scopes restTwins).bind
      fun leftBody rightBody body => ?_
  refine
    (expect_twins scopes.endings .rbrace body.rest).bind fun _ _ close => ?_
  refine .ok ⟨?_, close.rest⟩
  show
    (Stmt.block leftBody.value.1, leftBody.value.2) =
      (Stmt.block rightBody.value.1, rightBody.value.2)
  rw [body.value]

theorem stmtAgrees_empty (word : token.kind = .semicolon) :
    StmtAgrees pairing scope created (token :: rest) := by
  intro other others scopes twins
  obtain ⟨next, later, same, restTwins, rfl⟩ :=
    List.forall₂_cons_left_iff.mp twins
  rw [parse, parse]
  simp only [word, same.kind ▸ word]
  exact .ok ⟨rfl, restTwins⟩

theorem stmtAgrees_other (foreign : startsStatement token.kind = false) :
    StmtAgrees pairing scope created (token :: rest) := by
  intro other others scopes twins
  obtain ⟨next, later, same, restTwins, rfl⟩ :=
    List.forall₂_cons_left_iff.mp twins
  rw [parse, parse]
  rw [same.kind] at foreign ⊢
  split
  case h_10 =>
      exact .error (same.found _ (by decide))
  all_goals
    rename_i word
    simp [startsStatement, word] at foreign

theorem stmtsAgree_step
    (firstAgrees : StmtAgrees pairing scope created tokens)
    (othersAgree : ∀ stmt : Parsed (Numbered Stmt) tokens.length,
      StmtsAgree pairing scope stmt.value.2 stmt.rest) :
    StmtsAgree pairing scope created tokens := by
  intro other others scopes twins
  rw [parseMany, parseMany]
  refine (peek_twins scopes.endings twins).bind fun _ next nexts => ?_
  rw [nexts.kind]
  by_cases starts : startsStatement next.kind = true
  · simp only [starts, if_true]
    refine
      (firstAgrees other others scopes twins).bind
        fun leftFirst rightFirst stmt => ?_
    rw [← stmt.value]
    refine
      (othersAgree leftFirst other _ scopes stmt.rest).bind
        fun leftOthers rightOthers stmts => ?_
    refine .ok ⟨?_, stmts.rest⟩
    show
      (_ :: leftOthers.value.1, leftOthers.value.2) =
        (_ :: rightOthers.value.1, rightOthers.value.2)
    rw [stmts.value]
  · simp only [starts]
    exact .ok ⟨rfl, twins⟩

/-- Two readings of a sequence of statements go the same way. -/
theorem parseMany_twins
    (scopes : Scope.Twins pairing first second)
    (twins : List.Forall₂ pairing.Twins tokens others) :
    pairing.Agree Eq (parseMany first created tokens)
      (parseMany second created others) := by
  have readers :=
    parse.mutual_induct (StmtAgrees pairing) (StmtsAgree pairing)
      (fun _ _ => stmtAgrees_nil)
      (fun _ _ _ _ => stmtAgrees_assignment)
      (fun _ _ _ _ => stmtAgrees_if)
      (fun _ _ _ _ => stmtAgrees_while)
      (fun _ _ _ _ => stmtAgrees_return)
      (fun _ _ _ _ => stmtAgrees_break)
      (fun _ _ _ _ => stmtAgrees_continue)
      (fun _ _ _ _ => stmtAgrees_raw)
      (fun _ _ _ _ => stmtAgrees_block)
      (fun _ _ _ _ => stmtAgrees_empty)
      (by
        -- Each kind that starts a statement has a case above.
        intro scope created token rest
        intros
        apply stmtAgrees_other
        cases kind : token.kind <;> first | rfl | contradiction)
      (fun _ _ _ => stmtsAgree_step)
  exact readers.2 first created tokens second others scopes twins

end Readers

end FlatCode.Stmt
