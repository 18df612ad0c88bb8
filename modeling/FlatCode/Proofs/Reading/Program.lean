import FlatCode.Proofs.Reading.Stmt

/-!
# What reading a program builds

A program that is read has the form of `Program.Formed`.  Functions are read one
after the other, so the statement about them carries those that were read before
and the number of labels created up to then.
-/

namespace FlatCode

open Token (Ending Parsed Sound accept expect known_of_accept known_of_expect)

/-- The parts of a program that is read from known tokens, where each expression
has a property that depends on the functions above it. -/
def Program.readParts
    (known : Token → Prop) (property : List Callee → Expr → Prop)
    (functions : List Callee) (function : Option String) : Stmt.Parts :=
  Stmt.readParts known (property functions) function

namespace Function

variable {known : Token → Prop} {property : List Callee → Expr → Prop}
  {ending : Ending} {tokens : List Token}

theorem checkName_eq_ok
    {functions : List Function} {word : Token} {name : String}
    (checked : checkName functions word = .ok name) :
    name = word.payload ∧ name ∉ functions.map Function.name ∧
      Callable.builtin? name = none := by
  unfold checkName at checked
  split at checked
  · cases checked
  · next free =>
      cases checked
      simp only [Bool.or_eq_true, List.any_eq_true, beq_iff_eq, not_or] at free
      refine ⟨rfl, ?_, Option.not_isSome_iff_eq_none.mp free.2⟩
      intro member
      obtain ⟨function, functionMember, sameName⟩ := List.mem_map.mp member
      exact free.1 ⟨function, functionMember, sameName⟩

theorem checkParam_eq_ok
    {params : List String} {word : Token} {param : String}
    (checked : checkParam params word = .ok param) :
    param = word.payload ∧ param ∉ params := by
  unfold checkParam at checked
  split at checked
  · cases checked
  · next free =>
      cases checked
      exact ⟨rfl, by simpa using free⟩

/-- Different parameter names, each of them an identifier of the text. -/
def ParamsFormed (known : Token → Prop) (params : List String) : Prop :=
  params.Nodup ∧ ∀ param ∈ params,
    ∃ token, known token ∧ token.kind = .identifier ∧ token.payload = param

theorem paramsFormed_append
    {params : List String} {word : Token} {param : String}
    (formed : ParamsFormed known params) (wordKnown : known word)
    (identifier : word.kind = .identifier)
    (checked : checkParam params word = .ok param) :
    ParamsFormed known (params ++ [param]) := by
  obtain ⟨rfl, fresh⟩ := checkParam_eq_ok checked
  constructor
  · rw [List.nodup_append]
    refine ⟨formed.1, by simp, ?_⟩
    intro left leftMember right rightMember same
    rw [List.mem_singleton] at rightMember
    subst rightMember same
    exact fresh leftMember
  · intro param member
    rcases List.mem_append.mp member with earlier | last
    · exact formed.2 param earlier
    · rw [List.mem_singleton] at last
      exact ⟨word, wordKnown, identifier, last.symm⟩

theorem sound_of_parseParams
    {params : List String} {parsed : Parsed (List String) tokens.length}
    (formed : ParamsFormed known params)
    (tokensKnown : ∀ token ∈ tokens, known token)
    (read : parseParams ending params tokens = .ok parsed) :
    Sound known (ParamsFormed known) parsed := by
  induction params, tokens using parseParams.induct with
  | case1 params tokens inductionHypothesis =>
      rw [parseParams] at read
      obtain ⟨word, wordRead, read⟩ := bind_eq_ok_iff.mp read
      obtain ⟨param, checked, read⟩ := bind_eq_ok_iff.mp read
      obtain ⟨separator, separatorRead, read⟩ := bind_eq_ok_iff.mp read
      have wordKnown := known_of_expect tokensKnown wordRead
      have longer :=
        paramsFormed_append formed wordKnown.1
          (Token.eq_cons_of_expect wordRead).2 checked
      cases separator with
      | none =>
          cases read
          exact ⟨longer, wordKnown.2⟩
      | some comma =>
          obtain ⟨all, allRead, read⟩ := bind_eq_ok_iff.mp read
          cases read
          have commaKnown := (known_of_accept wordKnown.2 separatorRead).2
          have sound :=
            inductionHypothesis word param comma longer commaKnown allRead
          exact ⟨sound.value, sound.rest⟩

theorem sound_of_parseSignature
    {parsed : Parsed (List String) tokens.length}
    (tokensKnown : ∀ token ∈ tokens, known token)
    (read : parseSignature ending tokens = .ok parsed) :
    Sound known (ParamsFormed known) parsed := by
  obtain ⟨opening, openingRead, read⟩ := bind_eq_ok_iff.mp read
  obtain ⟨close, closeRead, read⟩ := bind_eq_ok_iff.mp read
  have openingKnown := (known_of_expect tokensKnown openingRead).2
  have none : ParamsFormed known [] := ⟨List.nodup_nil, by simp⟩
  cases close with
  | some close =>
      cases read
      exact ⟨none, (known_of_accept openingKnown closeRead).2⟩
  | none =>
      obtain ⟨params, paramsRead, read⟩ := bind_eq_ok_iff.mp read
      obtain ⟨close, closeRead, read⟩ := bind_eq_ok_iff.mp read
      cases read
      have sound := sound_of_parseParams none openingKnown paramsRead
      exact ⟨sound.value, (known_of_expect sound.rest closeRead).2⟩

theorem any_returns_closeBody (name : String) (body : List Stmt) :
    (closeBody name body).any Stmt.returns = true := by
  unfold closeBody
  split
  · next returning => exact returning
  · simp [Stmt.returns]

@[simp]
theorem loopLabelsAll_closeBody (name : String) (body : List Stmt) :
    Stmt.loopLabelsAll (closeBody name body) = Stmt.loopLabelsAll body := by
  unfold closeBody
  split
  · rfl
  · simp [Stmt.loopLabelsAll, Stmt.loopLabels]

theorem formedAll_closeBody
    {parts : Stmt.Parts} {name : String} {created : Nat} {body : List Stmt}
    (inside : parts.function = some name)
    (formed : Stmt.FormedAll parts none created body) :
    Stmt.FormedAll parts none created (closeBody name body) := by
  unfold closeBody
  split
  · exact formed
  · rw [Stmt.formedAll_append]
    refine ⟨formed, ⟨inside, ?_⟩, trivial⟩
    intro result member
    cases member

theorem sound_of_parse
    {functions : List Function} {created : Nat}
    {parsed : Parsed (Stmt.Numbered Function) tokens.length}
    (inherited : ∀ callees, Expr.Inherited callees known (property callees))
    (tokensKnown : ∀ token ∈ tokens, known token)
    (read : parse ending functions created tokens = .ok parsed) :
    Sound known
      (fun result =>
        result.1.Formed (Program.readParts known property) functions created ∧
          result.2 = created + result.1.labelCount)
      parsed := by
  obtain ⟨word, wordRead, read⟩ := bind_eq_ok_iff.mp read
  obtain ⟨name, checked, read⟩ := bind_eq_ok_iff.mp read
  obtain ⟨params, paramsRead, read⟩ := bind_eq_ok_iff.mp read
  obtain ⟨opening, openingRead, read⟩ := bind_eq_ok_iff.mp read
  obtain ⟨body, bodyRead, read⟩ := bind_eq_ok_iff.mp read
  obtain ⟨close, closeRead, read⟩ := bind_eq_ok_iff.mp read
  cases read
  have wordKnown := known_of_expect tokensKnown wordRead
  obtain ⟨rfl, fresh, notBuiltin⟩ := checkName_eq_ok checked
  have paramsSound := sound_of_parseSignature wordKnown.2 paramsRead
  have openingKnown := (known_of_expect paramsSound.rest openingRead).2
  have bodySound :=
    Stmt.sound_of_parseMany (inherited _) openingKnown bodyRead
  obtain ⟨bodyFormed, bodyAfter⟩ := bodySound.value
  have named :
      ∀ text ∈ word.value.payload :: params.value,
        ∃ token, known token ∧ token.kind = .identifier ∧
          token.payload = text := by
    intro text member
    rcases List.mem_cons.mp member with rfl | later
    · exact
        ⟨word.value, wordKnown.1, (Token.eq_cons_of_expect wordRead).2, rfl⟩
    · exact paramsSound.value.2 text later
  refine ⟨⟨⟨fresh, notBuiltin, paramsSound.value.1, named, ?_, ?_, ?_⟩, ?_⟩, ?_⟩
  · simp [bodyAfter]
  · exact formedAll_closeBody rfl bodyFormed
  · exact any_returns_closeBody _ _
  · simp [bodyAfter, labelCount, Nat.add_assoc]
  · exact (known_of_expect bodySound.rest closeRead).2

theorem formedAll_append
    {parts : List Callee → Option String → Stmt.Parts}
    {earlier first second : List Function} {created : Nat} :
    FormedAll parts earlier created (first ++ second) ↔
      FormedAll parts earlier created first ∧
        FormedAll parts (earlier ++ first) (created + labelCountAll first)
          second := by
  induction first generalizing earlier created with
  | nil =>
      simp [FormedAll, labelCountAll]
  | cons head tail inductionHypothesis =>
      simp [FormedAll, labelCountAll, inductionHypothesis, and_assoc,
        Nat.add_assoc]

end Function

namespace Program

variable {known : Token → Prop} {property : List Callee → Expr → Prop}
  {ending : Ending} {tokens : List Token}

/-- All functions read so far have the right form and create the labels counted
by the number beside them. -/
def FunctionsBuilt
    (parts : List Callee → Option String → Stmt.Parts)
    (result : Stmt.Numbered (List Function)) : Prop :=
  Function.FormedAll parts [] 0 result.1 ∧
    result.2 = Function.labelCountAll result.1

theorem sound_of_parseFunctions
    {functions : List Function} {created : Nat}
    {parsed :
      Parsed (Stmt.Numbered (List Function)) (tokens.length + 1)}
    (inherited : ∀ callees, Expr.Inherited callees known (property callees))
    (built : FunctionsBuilt (readParts known property) (functions, created))
    (tokensKnown : ∀ token ∈ tokens, known token)
    (read : parseFunctions ending functions created tokens = .ok parsed) :
    Sound known (FunctionsBuilt (readParts known property)) parsed := by
  induction functions, created, tokens using parseFunctions.induct with
  | case1 functions created tokens inductionHypothesis =>
      rw [parseFunctions] at read
      obtain ⟨word, wordRead, read⟩ := bind_eq_ok_iff.mp read
      cases word with
      | none =>
          cases read
          exact ⟨built, tokensKnown⟩
      | some word =>
          obtain ⟨function, functionRead, read⟩ := bind_eq_ok_iff.mp read
          obtain ⟨all, allRead, read⟩ := bind_eq_ok_iff.mp read
          cases read
          have wordKnown := (known_of_accept tokensKnown wordRead).2
          have functionSound :=
            Function.sound_of_parse inherited wordKnown functionRead
          obtain ⟨functionFormed, functionAfter⟩ := functionSound.value
          obtain ⟨functionsFormed, functionsAfter⟩ := built
          have longer :
              FunctionsBuilt (readParts known property)
                (functions ++ [function.value.1], function.value.2) := by
            simp only at functionsFormed functionsAfter
            rw [functionsAfter] at functionFormed functionAfter
            constructor
            · rw [Function.formedAll_append]
              simpa [Function.FormedAll] using
                And.intro functionsFormed functionFormed
            · simpa [Function.labelCountAll] using functionAfter
          have sound :=
            inductionHypothesis word function longer functionSound.rest allRead
          exact ⟨sound.value, sound.rest⟩

/-- A program that is read from known tokens has the form of a program that was
read. -/
theorem formed_of_ofStream
    {stream : Token.Stream} {program : Program}
    (inherited : ∀ callees, Expr.Inherited callees known (property callees))
    (tokensKnown : ∀ token ∈ stream.tokens, known token)
    (read : ofStream stream = .ok program) :
    program.Formed (readParts known property) := by
  obtain ⟨functions, functionsRead, read⟩ := bind_eq_ok_iff.mp read
  obtain ⟨main, mainRead, read⟩ := bind_eq_ok_iff.mp read
  obtain ⟨_, _, read⟩ := bind_eq_ok_iff.mp read
  cases read
  have none : FunctionsBuilt (readParts known property) ([], 0) :=
    ⟨trivial, rfl⟩
  have functionsSound :=
    sound_of_parseFunctions inherited none tokensKnown functionsRead
  obtain ⟨functionsFormed, functionsAfter⟩ := functionsSound.value
  have mainSound :=
    Stmt.sound_of_parseMany (inherited _) functionsSound.rest mainRead
  obtain ⟨mainFormed, mainAfter⟩ := mainSound.value
  rw [functionsAfter] at mainFormed mainAfter
  exact
    ⟨functionsFormed, mainFormed,
      congrArg LabelTable.empty.createMany mainAfter⟩

/-- A text that is read as a program with a given property. -/
theorem exists_of_accepted
    {source : String} {condition : Program → Bool}
    (accepted : (parse source).toOption.any condition = true) :
    ∃ program, parse source = .ok program ∧ condition program = true :=
  exists_ok_of_any accepted

end Program

end FlatCode
