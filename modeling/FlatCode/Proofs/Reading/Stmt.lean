import FlatCode.Proofs.Form
import FlatCode.Proofs.Reading.Expr

/-!
# What reading a statement builds

A statement that is read is `Formed`, and the number of labels behind it is the
number before it with those of its loops added.  The names in it are identifiers
of the text, and its expressions have every property that is inherited.
-/

namespace FlatCode.Stmt

open Token (Parsed Sound accept expect known_of_accept known_of_expect)

/-- The parts of statements that are read from known tokens, where all
expressions have a property. -/
def readParts
    (known : Token → Prop) (property : Expr → Prop)
    (function : Option String) : Parts where
  name text :=
    ∃ token, known token ∧ token.kind = .identifier ∧ token.payload = text
  raw text := ∃ token, known token ∧ token.kind = .raw ∧ token.payload = text
  value expr := ∃ loose, property loose ∧ expr = loose.normalize
  condition := property
  function := function

section Readers

variable {known : Token → Prop} {property : Expr → Prop} {scope : Scope}
  {tokens : List Token}

theorem sound_of_skipSemicolon
    {α : Type} {limit : Nat} {holds : α → Prop} {parsed ended : Parsed α limit}
    (sound : Sound known holds parsed)
    (read : skipSemicolon scope parsed = .ok ended) :
    Sound known holds ended := by
  unfold skipSemicolon at read
  obtain ⟨next, nextRead, read⟩ := bind_eq_ok_iff.mp read
  cases next with
  | none =>
      cases read
      exact sound
  | some semicolon =>
      cases read
      exact ⟨sound.value, (known_of_accept sound.rest nextRead).2⟩

theorem sound_of_parseValue
    {parsed : Parsed Expr tokens.length} (function : Option String)
    (inherited : Expr.Inherited scope.expressions.functions known property)
    (tokensKnown : ∀ token ∈ tokens, known token)
    (read : parseValue scope tokens = .ok parsed) :
    Sound known (readParts known property function).value parsed := by
  obtain ⟨value, valueRead, read⟩ := bind_eq_ok_iff.mp read
  cases read
  have valueSound := Expr.sound_of_parse inherited tokensKnown valueRead
  exact ⟨⟨value.value, valueSound.value, rfl⟩, valueSound.rest⟩

theorem sound_of_parseCondition
    {parsed : Parsed Expr tokens.length}
    (inherited : Expr.Inherited scope.expressions.functions known property)
    (tokensKnown : ∀ token ∈ tokens, known token)
    (read : parseCondition scope tokens = .ok parsed) :
    Sound known property parsed := by
  obtain ⟨opening, openingRead, read⟩ := bind_eq_ok_iff.mp read
  obtain ⟨condition, conditionRead, read⟩ := bind_eq_ok_iff.mp read
  obtain ⟨close, closeRead, read⟩ := bind_eq_ok_iff.mp read
  cases read
  have openingKnown := (known_of_expect tokensKnown openingRead).2
  have sound := Expr.sound_of_parse inherited openingKnown conditionRead
  exact ⟨sound.value, (known_of_expect sound.rest closeRead).2⟩

theorem sound_of_parseAssigned
    {parsed : Parsed Expr tokens.length} (function : Option String)
    (inherited : Expr.Inherited scope.expressions.functions known property)
    (tokensKnown : ∀ token ∈ tokens, known token)
    (read : parseAssigned scope tokens = .ok parsed) :
    Sound known (readParts known property function).value parsed := by
  obtain ⟨sign, signRead, read⟩ := bind_eq_ok_iff.mp read
  obtain ⟨value, valueRead, read⟩ := bind_eq_ok_iff.mp read
  cases read
  have signKnown := (known_of_expect tokensKnown signRead).2
  have sound := sound_of_parseValue function inherited signKnown valueRead
  exact ⟨sound.value, sound.rest⟩

/-- A statement of the right form, which creates the labels up to `after`. -/
def Built
    (parts : Parts) (loop : Option LoopLabels) (created : Nat)
    (result : Numbered Stmt) : Prop :=
  result.1.Formed parts loop created ∧
    result.2 = created + result.1.loopLabels

def BuiltAll
    (parts : Parts) (loop : Option LoopLabels) (created : Nat)
    (result : Numbered (List Stmt)) : Prop :=
  FormedAll parts loop created result.1 ∧
    result.2 = created + loopLabelsAll result.1

theorem sound_of_parseAssignment
    {target : Token} {parsed : Parsed Stmt tokens.length}
    (inherited : Expr.Inherited scope.expressions.functions known property)
    (targetKnown : known target) (identifier : target.kind = .identifier)
    (tokensKnown : ∀ token ∈ tokens, known token)
    (read : parseAssignment scope target.payload tokens = .ok parsed)
    (created : Nat) :
    Sound known
      (fun stmt =>
        Built (readParts known property scope.function) scope.loop created
          (stmt, created))
      parsed := by
  have named :
      (readParts known property scope.function).name target.payload :=
    ⟨target, targetKnown, identifier, rfl⟩
  obtain ⟨bracket, bracketRead, read⟩ := bind_eq_ok_iff.mp read
  cases bracket with
  | none =>
      obtain ⟨value, valueRead, read⟩ := bind_eq_ok_iff.mp read
      cases read
      have sound :=
        sound_of_parseAssigned scope.function inherited tokensKnown valueRead
      exact ⟨⟨⟨named, sound.value⟩, rfl⟩, sound.rest⟩
  | some opening =>
      obtain ⟨index, indexRead, read⟩ := bind_eq_ok_iff.mp read
      obtain ⟨close, closeRead, read⟩ := bind_eq_ok_iff.mp read
      obtain ⟨value, valueRead, read⟩ := bind_eq_ok_iff.mp read
      cases read
      have openingKnown := (known_of_accept tokensKnown bracketRead).2
      have indexSound :=
        sound_of_parseValue scope.function inherited openingKnown indexRead
      have closeKnown := (known_of_expect indexSound.rest closeRead).2
      have valueSound :=
        sound_of_parseAssigned scope.function inherited closeKnown valueRead
      exact
        ⟨⟨⟨named, indexSound.value, valueSound.value⟩, rfl⟩, valueSound.rest⟩

theorem sound_of_parseReturn
    {word : Token} {parsed : Parsed Stmt (tokens.length + 1)}
    (inherited : Expr.Inherited scope.expressions.functions known property)
    (tokensKnown : ∀ token ∈ tokens, known token)
    (read : parseReturn scope word tokens = .ok parsed) (created : Nat) :
    Sound known
      (fun stmt =>
        Built (readParts known property scope.function) scope.loop created
          (stmt, created))
      parsed := by
  unfold parseReturn at read
  split at read
  · cases read
  · next function inside =>
      obtain ⟨next, nextRead, read⟩ := bind_eq_ok_iff.mp read
      split at read
      · obtain ⟨value, valueRead, read⟩ := bind_eq_ok_iff.mp read
        cases read
        have sound :=
          sound_of_parseValue scope.function inherited tokensKnown valueRead
        refine ⟨⟨⟨inside, ?_⟩, rfl⟩, sound.rest⟩
        intro result member
        cases member
        exact sound.value
      · cases read
        refine ⟨⟨⟨inside, ?_⟩, rfl⟩, tokensKnown⟩
        intro result member
        cases member

variable (known property)

def StmtSound (scope : Scope) (created : Nat) (tokens : List Token) : Prop :=
  Expr.Inherited scope.expressions.functions known property →
    (∀ token ∈ tokens, known token) →
      ∀ parsed, parse scope created tokens = .ok parsed →
        Sound known
          (Built (readParts known property scope.function) scope.loop created)
          parsed

def StmtsSound (scope : Scope) (created : Nat) (tokens : List Token) : Prop :=
  Expr.Inherited scope.expressions.functions known property →
    (∀ token ∈ tokens, known token) →
      ∀ parsed, parseMany scope created tokens = .ok parsed →
        Sound known
          (BuiltAll (readParts known property scope.function) scope.loop created)
          parsed

variable {known property} {created : Nat} {token : Token} {rest : List Token}

theorem stmtSound_assignment (identifier : token.kind = .identifier) :
    StmtSound known property scope created (token :: rest) := by
  intro inherited tokensKnown parsed read
  obtain ⟨tokenKnown, restKnown⟩ := List.forall_mem_cons.mp tokensKnown
  rw [parse] at read
  simp only [identifier] at read
  obtain ⟨stmt, stmtRead, read⟩ := bind_eq_ok_iff.mp read
  obtain ⟨ended, endedRead, read⟩ := bind_eq_ok_iff.mp read
  cases read
  have sound :=
    sound_of_skipSemicolon
      (sound_of_parseAssignment inherited tokenKnown identifier restKnown
        stmtRead created)
      endedRead
  exact ⟨sound.value, sound.rest⟩

theorem stmtSound_if
    (word : token.kind = .kwIf)
    (thenSound : ∀ condition : Parsed Expr rest.length,
      StmtSound known property scope created condition.rest)
    (elseSound :
      ∀ (condition : Parsed Expr rest.length)
        (thenBranch : Parsed (Numbered Stmt) condition.rest.length)
        (between : Parsed Token thenBranch.rest.length),
        StmtSound known property scope thenBranch.value.2 between.rest) :
    StmtSound known property scope created (token :: rest) := by
  intro inherited tokensKnown parsed read
  have restKnown := (List.forall_mem_cons.mp tokensKnown).2
  rw [parse] at read
  simp only [word] at read
  obtain ⟨condition, conditionRead, read⟩ := bind_eq_ok_iff.mp read
  obtain ⟨thenBranch, thenRead, read⟩ := bind_eq_ok_iff.mp read
  obtain ⟨between, betweenRead, read⟩ := bind_eq_ok_iff.mp read
  have conditionHas :=
    sound_of_parseCondition inherited restKnown conditionRead
  have thenHas :=
    thenSound condition inherited conditionHas.rest thenBranch thenRead
  obtain ⟨thenFormed, thenAfter⟩ := thenHas.value
  cases between with
  | none =>
      cases read
      exact
        ⟨⟨⟨conditionHas.value, thenFormed⟩, thenAfter⟩, thenHas.rest⟩
  | some between =>
      obtain ⟨elseBranch, elseRead, read⟩ := bind_eq_ok_iff.mp read
      cases read
      have betweenKnown := (known_of_accept thenHas.rest betweenRead).2
      have elseHas :=
        elseSound condition thenBranch between inherited betweenKnown
          elseBranch elseRead
      obtain ⟨elseFormed, elseAfter⟩ := elseHas.value
      rw [thenAfter] at elseFormed elseAfter
      refine ⟨⟨⟨conditionHas.value, thenFormed, elseFormed⟩, ?_⟩, elseHas.rest⟩
      simp only [Parsed.value_weaken, Parsed.value_andThen, Parsed.value_map,
        loopLabels, elseAfter, Nat.add_assoc]

theorem stmtSound_while
    (word : token.kind = .kwWhile)
    (bodySound : ∀ condition : Parsed Expr rest.length,
      StmtSound known property
        { scope with loop := some ⟨⟨created⟩, ⟨created + 1⟩⟩ } (created + 2)
        condition.rest) :
    StmtSound known property scope created (token :: rest) := by
  intro inherited tokensKnown parsed read
  have restKnown := (List.forall_mem_cons.mp tokensKnown).2
  rw [parse] at read
  simp only [word] at read
  obtain ⟨condition, conditionRead, read⟩ := bind_eq_ok_iff.mp read
  obtain ⟨body, bodyRead, read⟩ := bind_eq_ok_iff.mp read
  cases read
  have conditionHas :=
    sound_of_parseCondition inherited restKnown conditionRead
  have bodyHas :=
    bodySound condition inherited conditionHas.rest body bodyRead
  obtain ⟨bodyFormed, bodyAfter⟩ := bodyHas.value
  refine ⟨⟨⟨rfl, rfl, conditionHas.value, bodyFormed⟩, ?_⟩, bodyHas.rest⟩
  simp only [Parsed.value_weaken, Parsed.value_andThen, Parsed.value_map,
    loopLabels, bodyAfter]
  omega

theorem stmtSound_return (word : token.kind = .kwReturn) :
    StmtSound known property scope created (token :: rest) := by
  intro inherited tokensKnown parsed read
  have restKnown := (List.forall_mem_cons.mp tokensKnown).2
  rw [parse] at read
  simp only [word] at read
  obtain ⟨stmt, stmtRead, read⟩ := bind_eq_ok_iff.mp read
  obtain ⟨ended, endedRead, read⟩ := bind_eq_ok_iff.mp read
  cases read
  have sound :=
    sound_of_skipSemicolon
      (sound_of_parseReturn inherited restKnown stmtRead created) endedRead
  exact ⟨sound.value, sound.rest⟩

theorem loop_of_enclosingLoop
    {labels : LoopLabels} (found : enclosingLoop scope token = .ok labels) :
    scope.loop = some labels := by
  unfold enclosingLoop at found
  split at found
  · cases found
  · next inside =>
      cases found
      exact inside

theorem sound_of_jump
    {labels : LoopLabels} {target : Label}
    {parsed : Parsed (Numbered Stmt) (rest.length + 1)}
    (found : enclosingLoop scope token = .ok labels)
    (innermost : target = labels.home ∨ target = labels.exit)
    (restKnown : ∀ next ∈ rest, known next)
    (read :
      skipSemicolon scope (.stay (.jump target, created) rest) = .ok parsed) :
    Sound known
      (Built (readParts known property scope.function) scope.loop created)
      parsed := by
  have stayed :
      Sound known
        (Built (readParts known property scope.function) scope.loop created)
        (Parsed.stay (Stmt.jump target, created) rest) :=
    ⟨⟨⟨labels, loop_of_enclosingLoop found, innermost⟩, rfl⟩, restKnown⟩
  exact sound_of_skipSemicolon stayed read

theorem stmtSound_break (word : token.kind = .kwBreak) :
    StmtSound known property scope created (token :: rest) := by
  intro inherited tokensKnown parsed read
  have restKnown := (List.forall_mem_cons.mp tokensKnown).2
  rw [parse] at read
  simp only [word] at read
  obtain ⟨labels, found, read⟩ := bind_eq_ok_iff.mp read
  exact sound_of_jump found (Or.inr rfl) restKnown read

theorem stmtSound_continue (word : token.kind = .kwContinue) :
    StmtSound known property scope created (token :: rest) := by
  intro inherited tokensKnown parsed read
  have restKnown := (List.forall_mem_cons.mp tokensKnown).2
  rw [parse] at read
  simp only [word] at read
  obtain ⟨labels, found, read⟩ := bind_eq_ok_iff.mp read
  exact sound_of_jump found (Or.inl rfl) restKnown read

theorem stmtSound_raw (word : token.kind = .raw) :
    StmtSound known property scope created (token :: rest) := by
  intro inherited tokensKnown parsed read
  obtain ⟨tokenKnown, restKnown⟩ := List.forall_mem_cons.mp tokensKnown
  rw [parse] at read
  simp only [word] at read
  cases read
  exact ⟨⟨⟨token, tokenKnown, word, rfl⟩, rfl⟩, restKnown⟩

theorem stmtSound_block
    (word : token.kind = .lbrace)
    (bodySound : StmtsSound known property scope created rest) :
    StmtSound known property scope created (token :: rest) := by
  intro inherited tokensKnown parsed read
  have restKnown := (List.forall_mem_cons.mp tokensKnown).2
  rw [parse] at read
  simp only [word] at read
  obtain ⟨body, bodyRead, read⟩ := bind_eq_ok_iff.mp read
  obtain ⟨close, closeRead, read⟩ := bind_eq_ok_iff.mp read
  cases read
  have bodyHas := bodySound inherited restKnown body bodyRead
  exact ⟨bodyHas.value, (known_of_expect bodyHas.rest closeRead).2⟩

theorem stmtSound_empty (word : token.kind = .semicolon) :
    StmtSound known property scope created (token :: rest) := by
  intro inherited tokensKnown parsed read
  have restKnown := (List.forall_mem_cons.mp tokensKnown).2
  rw [parse] at read
  simp only [word] at read
  cases read
  exact ⟨⟨trivial, rfl⟩, restKnown⟩

theorem stmtSound_nil : StmtSound known property scope created [] := by
  intro _ _ parsed read
  rw [parse] at read
  obtain ⟨_, _, read⟩ := bind_eq_ok_iff.mp read
  cases read

theorem stmtSound_other (foreign : startsStatement token.kind = false) :
    StmtSound known property scope created (token :: rest) := by
  intro _ _ parsed read
  rw [parse] at read
  split at read
  case h_10 =>
      cases read
  all_goals
    rename_i word
    simp [startsStatement, word] at foreign

theorem stmtsSound_step
    (firstSound : StmtSound known property scope created tokens)
    (othersSound : ∀ first : Parsed (Numbered Stmt) tokens.length,
      StmtsSound known property scope first.value.2 first.rest) :
    StmtsSound known property scope created tokens := by
  intro inherited tokensKnown parsed read
  rw [parseMany] at read
  obtain ⟨next, nextRead, read⟩ := bind_eq_ok_iff.mp read
  split at read
  · obtain ⟨first, firstRead, read⟩ := bind_eq_ok_iff.mp read
    obtain ⟨others, othersRead, read⟩ := bind_eq_ok_iff.mp read
    cases read
    have firstHas := firstSound inherited tokensKnown first firstRead
    obtain ⟨firstFormed, firstAfter⟩ := firstHas.value
    have othersHave :=
      othersSound first inherited firstHas.rest others othersRead
    obtain ⟨othersFormed, othersAfter⟩ := othersHave.value
    rw [firstAfter] at othersFormed othersAfter
    refine ⟨⟨⟨firstFormed, othersFormed⟩, ?_⟩, othersHave.rest⟩
    simp only [Parsed.value_weaken, Parsed.value_andMaybe, Parsed.value_map,
      loopLabelsAll, othersAfter, Nat.add_assoc]
  · cases read
    exact ⟨⟨trivial, rfl⟩, tokensKnown⟩

/-- Reading statements builds statements of the right form. -/
theorem sound_of_parseMany
    {parsed : Parsed (Numbered (List Stmt)) (tokens.length + 1)}
    (inherited : Expr.Inherited scope.expressions.functions known property)
    (tokensKnown : ∀ token ∈ tokens, known token)
    (read : parseMany scope created tokens = .ok parsed) :
    Sound known
      (BuiltAll (readParts known property scope.function) scope.loop created)
      parsed := by
  have readers :=
    parse.mutual_induct (StmtSound known property) (StmtsSound known property)
      (fun _ _ => stmtSound_nil)
      (fun _ _ _ _ => stmtSound_assignment)
      (fun _ _ _ _ => stmtSound_if)
      (fun _ _ _ _ => stmtSound_while)
      (fun _ _ _ _ => stmtSound_return)
      (fun _ _ _ _ => stmtSound_break)
      (fun _ _ _ _ => stmtSound_continue)
      (fun _ _ _ _ => stmtSound_raw)
      (fun _ _ _ _ => stmtSound_block)
      (fun _ _ _ _ => stmtSound_empty)
      (by
        intro scope created token rest
        intros
        apply stmtSound_other
        cases kind : token.kind <;> first | rfl | contradiction)
      (fun _ _ _ => stmtsSound_step)
  exact readers.2 scope created tokens inherited tokensKnown parsed read

end Readers

end FlatCode.Stmt
