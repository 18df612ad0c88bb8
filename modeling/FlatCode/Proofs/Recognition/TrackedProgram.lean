import FlatCode.Proofs.Grammar.Accepted
import FlatCode.Proofs.Recognition.TrackedExpr
import FlatCode.Proofs.Token.Partition

/-!
# Programs and the recognizer

The readers of statements, functions and programs go with the recognizer as those of
expressions do.  So a text whose tokens do not fit the grammar is reported at the
token that the recognizer refuses: what stands before this token can be completed to a
program, and with this token it cannot.
-/

namespace FlatCode.Recognizer

open Token (Ending Kind Parsed kind_ne_eof_of_mem)
open Surface (nextKind)

/-! ## Statements -/

section Statements

open FlatCode.Stmt (Scope skipSemicolon parseValue parseCondition parseAssigned
  parseAssignment parseReturn)

variable {last : Token} {scope : Scope} {tokens : List Token}

variable (isLast : last.kind = .eof) (ended : scope.ending = .ok last)

include isLast ended

theorem tracks_skipSemicolon
    {α : Type} {limit : Nat} (parsed : Parsed α limit) :
    Tracks last [.semicolon] [] parsed.rest (skipSemicolon scope parsed) := by
  refine tracks_accept ended (by decide) rfl (fun _ => .ok .refl) fun absent => ?_
  exact .ok (.skip isLast rfl (if_neg absent))

theorem tracks_parseValue :
    Tracks last [.operand, .operators] [] tokens (parseValue scope tokens) :=
  (tracks_parse isLast ended tokens).bind fun _ _ => .ok .refl

theorem tracks_parseCondition (goals : List Goal) :
    Tracks last
      (.token .lparen :: .operand :: .operators :: .token .rparen :: goals) goals
      tokens (parseCondition scope tokens) := by
  refine (tracks_expect ended isLast (by decide)).bind fun opening _ => ?_
  refine
    ((tracks_parse isLast ended opening.rest).above (.token .rparen :: goals)).bind
      fun condition _ => ?_
  exact (tracks_expect ended isLast (by decide)).bind fun _ _ => .ok .refl

theorem tracks_parseAssigned :
    Tracks last [.token .assign, .operand, .operators] [] tokens
      (parseAssigned scope tokens) := by
  refine (tracks_expect ended isLast (by decide)).bind fun sign _ => ?_
  exact (tracks_parseValue isLast ended).bind fun _ _ => .ok .refl

theorem tracks_parseAssignment (target : String) :
    Tracks last [.assignment] [] tokens
      (parseAssignment scope target tokens) := by
  refine tracks_accept ended (by decide) rfl (fun opening => ?_) fun absent => ?_
  · refine
      ((tracks_parseValue isLast ended).above
        [.token .rbracket, .token .assign, .operand, .operators]).bind
        fun index _ => ?_
    refine (tracks_expect ended isLast (by decide)).bind fun close _ => ?_
    exact (tracks_parseAssigned isLast ended).bind fun _ _ => .ok .refl
  · refine Tracks.behind ?_ (moves_assignment isLast absent)
    exact (tracks_parseAssigned isLast ended).bind fun _ _ => .ok .refl

theorem tracks_parseReturn (word : Token) :
    Tracks last [.result] [] tokens (parseReturn scope word tokens) := by
  unfold parseReturn
  split
  · exact .unchecked nofun
  · obtain ⟨next, peeked, sameKind⟩ := Token.exists_peek ended isLast tokens
    rw [peeked]
    simp only [Token.ok_bind, sameKind]
    split
    · next starts =>
        have listed := (Surface.startsResult_iff_mem _).mp starts
        refine Tracks.behind ?_ (moves_result isLast listed [])
        exact (tracks_parseValue isLast ended).bind fun _ _ => .ok .refl
    · next foreign =>
        have skipped : Goal.result.take (nextKind tokens) = none :=
          if_neg fun listed => foreign ((Surface.startsResult_iff_mem _).mpr listed)
        exact .ok (.skip isLast rfl skipped)

end Statements

/-! ### Kinds of statements -/

section Kinds

open FlatCode.Stmt (Numbered Scope skipSemicolon enclosingLoop startsStatement)

/-- The loop around a loop control is looked up besides the grammar. -/
theorem semantic_enclosingLoop (scope : Scope) (word : Token) :
    Semantic (enclosingLoop scope word) := by
  intro report failed
  unfold enclosingLoop at failed
  split at failed <;> cases failed
  nofun

variable (last : Token)

def StmtTracks (scope : Scope) (created : Nat) (tokens : List Token) : Prop :=
  scope.ending = .ok last →
    Tracks last [.stmt] [] tokens (FlatCode.Stmt.parse scope created tokens)

def StmtsTrack (scope : Scope) (created : Nat) (tokens : List Token) : Prop :=
  scope.ending = .ok last →
    Tracks last [.stmts] [] tokens
      (FlatCode.Stmt.parseMany scope created tokens)

variable {last} {scope : Scope} {created : Nat} {token : Token}
  {tokens rest : List Token}

theorem stmtTracks_raw (word : token.kind = .raw) :
    StmtTracks last scope created (token :: rest) := by
  intro _
  rw [FlatCode.Stmt.parse]
  simp only [word]
  exact .ok (.clear word rfl)

theorem stmtTracks_empty (word : token.kind = .semicolon) :
    StmtTracks last scope created (token :: rest) := by
  intro _
  rw [FlatCode.Stmt.parse]
  simp only [word]
  exact .ok (.clear word rfl)

theorem stmtTracks_other (foreign : startsStatement token.kind = false) :
    StmtTracks last scope created (token :: rest) := by
  intro _
  have untaken : Goal.stmt.take token.kind = none := by
    rw [← isSome_takeStmt, Option.isSome_eq_false_iff,
      Option.isNone_iff_eq_none] at foreign
    exact foreign
  rw [FlatCode.Stmt.parse]
  split
  case h_10 =>
      exact .refuse rfl untaken rfl rfl
  all_goals
    rename_i word
    simp [startsStatement, word] at foreign

variable (isLast : last.kind = .eof)

include isLast

theorem stmtTracks_nil : StmtTracks last scope created [] := by
  intro ended
  have foreign : Goal.stmt.take last.kind = none := by
    rw [isLast]
    rfl
  rw [FlatCode.Stmt.parse, ended]
  exact .refuse rfl foreign rfl rfl

theorem stmtTracks_assignment (identifier : token.kind = .identifier) :
    StmtTracks last scope created (token :: rest) := by
  intro ended
  rw [FlatCode.Stmt.parse]
  simp only [identifier]
  refine Tracks.behind ?_ (Moves.step identifier rfl)
  refine
    ((tracks_parseAssignment isLast ended token.payload).above [.semicolon]).bind
      fun stmt _ => ?_
  exact (tracks_skipSemicolon isLast ended stmt).bind fun _ _ => .ok .refl

theorem stmtTracks_if
    (word : token.kind = .kwIf)
    (thenTracks : ∀ condition : Parsed Expr rest.length,
      StmtTracks last scope created condition.rest)
    (elseTracks :
      ∀ (condition : Parsed Expr rest.length)
        (thenBranch : Parsed (Numbered Stmt) condition.rest.length)
        (between : Parsed Token thenBranch.rest.length),
        StmtTracks last scope thenBranch.value.2 between.rest) :
    StmtTracks last scope created (token :: rest) := by
  intro ended
  rw [FlatCode.Stmt.parse]
  simp only [word]
  refine Tracks.behind ?_ (Moves.step word rfl)
  refine
    (tracks_parseCondition isLast ended [.stmt, .elseBranch]).bind
      fun condition _ => ?_
  refine
    ((thenTracks condition ended).above [.elseBranch]).bind
      fun thenBranch _ => ?_
  refine tracks_accept ended (by decide) rfl (fun between => ?_) fun noElse => ?_
  · exact
      (elseTracks condition thenBranch between ended).bind fun _ _ => .ok .refl
  · exact .ok (.skip isLast rfl (if_neg noElse))

theorem stmtTracks_while
    (word : token.kind = .kwWhile)
    (bodyTracks : ∀ condition : Parsed Expr rest.length,
      StmtTracks last { scope with loop := some ⟨⟨created⟩, ⟨created + 1⟩⟩ }
        (created + 2) condition.rest) :
    StmtTracks last scope created (token :: rest) := by
  intro ended
  rw [FlatCode.Stmt.parse]
  simp only [word]
  refine Tracks.behind ?_ (Moves.step word rfl)
  refine
    (tracks_parseCondition isLast ended [.stmt]).bind fun condition _ => ?_
  exact (bodyTracks condition ended).bind fun _ _ => .ok .refl

theorem stmtTracks_return (word : token.kind = .kwReturn) :
    StmtTracks last scope created (token :: rest) := by
  intro ended
  rw [FlatCode.Stmt.parse]
  simp only [word]
  refine Tracks.behind ?_ (Moves.step word rfl)
  refine
    ((tracks_parseReturn isLast ended token).above [.semicolon]).bind
      fun stmt _ => ?_
  exact (tracks_skipSemicolon isLast ended stmt).bind fun _ _ => .ok .refl

/-- Loop controls differ only in the label they jump to. -/
theorem tracks_jump
    (ended : scope.ending = .ok last) (target : Stmt.LoopLabels → Label) :
    Tracks last [.semicolon] [] rest
      (do
        let labels ← enclosingLoop scope token
        skipSemicolon scope (.stay (Stmt.jump (target labels), created) rest)) :=
  .check (semantic_enclosingLoop scope token) fun labels =>
    tracks_skipSemicolon isLast ended
      (.stay (Stmt.jump (target labels), created) rest)

theorem stmtTracks_break (word : token.kind = .kwBreak) :
    StmtTracks last scope created (token :: rest) := by
  intro ended
  rw [FlatCode.Stmt.parse]
  simp only [word]
  refine Tracks.behind ?_ (Moves.step word rfl)
  exact tracks_jump isLast ended (·.exit)

theorem stmtTracks_continue (word : token.kind = .kwContinue) :
    StmtTracks last scope created (token :: rest) := by
  intro ended
  rw [FlatCode.Stmt.parse]
  simp only [word]
  refine Tracks.behind ?_ (Moves.step word rfl)
  exact tracks_jump isLast ended (·.home)

theorem stmtTracks_block
    (word : token.kind = .lbrace)
    (bodyTracks : StmtsTrack last scope created rest) :
    StmtTracks last scope created (token :: rest) := by
  intro ended
  rw [FlatCode.Stmt.parse]
  simp only [word]
  refine Tracks.behind ?_ (Moves.step word rfl)
  refine ((bodyTracks ended).above [.token .rbrace]).bind fun body _ => ?_
  exact (tracks_expect ended isLast (by decide)).bind fun _ _ => .ok .refl

theorem stmtsTrack_step
    (firstTracks : StmtTracks last scope created tokens)
    (othersTrack : ∀ first : Parsed (Numbered Stmt) tokens.length,
      StmtsTrack last scope first.value.2 first.rest) :
    StmtsTrack last scope created tokens := by
  intro ended
  obtain ⟨next, peeked, sameKind⟩ := Token.exists_peek ended isLast tokens
  rw [FlatCode.Stmt.parseMany, peeked]
  simp only [Token.ok_bind, sameKind]
  split
  · next starts =>
      refine Tracks.behind ?_ (moves_stmts isLast starts)
      refine ((firstTracks ended).above [.stmts]).bind fun first _ => ?_
      exact (othersTrack first ended).bind fun _ _ => .ok .refl
  · next foreign =>
      exact .ok (moves_no_stmts isLast (Bool.eq_false_iff.mpr foreign))

/-- The statement about the statements of a scope. -/
theorem tracks_parseMany
    (scope : Scope) (created : Nat) (tokens : List Token)
    (ended : scope.ending = .ok last) :
    Tracks last [.stmts] [] tokens
      (FlatCode.Stmt.parseMany scope created tokens) := by
  have readers :=
    FlatCode.Stmt.parse.mutual_induct (StmtTracks last) (StmtsTrack last)
      (fun _ _ => stmtTracks_nil isLast)
      (fun _ _ _ _ => stmtTracks_assignment isLast)
      (fun _ _ _ _ => stmtTracks_if isLast)
      (fun _ _ _ _ => stmtTracks_while isLast)
      (fun _ _ _ _ => stmtTracks_return isLast)
      (fun _ _ _ _ => stmtTracks_break isLast)
      (fun _ _ _ _ => stmtTracks_continue isLast)
      (fun _ _ _ _ => stmtTracks_raw)
      (fun _ _ _ _ => stmtTracks_block isLast)
      (fun _ _ _ _ => stmtTracks_empty)
      (by
        -- Each kind that starts a statement has a case above.
        intro scope created token rest
        intros
        apply stmtTracks_other
        cases kind : token.kind <;> first | rfl | contradiction)
      (fun _ _ _ => stmtsTrack_step isLast)
  exact readers.2 scope created tokens ended

end Kinds

/-! ## Functions and programs -/

section Programs

variable {last : Token} {ending : Ending} {tokens : List Token}

theorem semantic_checkName (functions : List Function) (name : Token) :
    Semantic (Function.checkName functions name) := by
  intro report failed
  unfold Function.checkName at failed
  split at failed <;> cases failed
  nofun

theorem semantic_checkParam (params : List String) (param : Token) :
    Semantic (Function.checkParam params param) := by
  intro report failed
  unfold Function.checkParam at failed
  split at failed <;> cases failed
  nofun

/-- No token behind what was read ends the input if none does in the beginning. -/
theorem inner_of_read
    (inner : ∀ token ∈ tokens, token.kind ≠ .eof) {scope : Stmt.Scope}
    {functions :
      Parsed (Stmt.Numbered (List Function)) (tokens.length + 1)}
    {main :
      Parsed (Stmt.Numbered (List Stmt)) (functions.rest.length + 1)}
    (functionsRead :
      Program.parseFunctions ending [] 0 tokens = .ok functions)
    (mainRead :
      Stmt.parseMany scope functions.value.2 functions.rest = .ok main) :
    ∀ token ∈ main.rest, token.kind ≠ .eof := by
  have inherited : ∀ callees : List Callee,
      Expr.Inherited callees (fun token => token.kind ≠ .eof) fun _ => True :=
    fun _ => by constructor <;> intros <;> trivial
  have none :
      Program.FunctionsBuilt
        (Program.readParts (fun token => token.kind ≠ .eof) fun _ _ => True)
        ([], 0) :=
    ⟨trivial, rfl⟩
  have functionsSound :=
    Program.sound_of_parseFunctions inherited none inner functionsRead
  exact
    (Stmt.sound_of_parseMany (inherited _) functionsSound.rest mainRead).rest

variable (isLast : last.kind = .eof) (ended : ending = .ok last)

include isLast ended

theorem tracks_parseParams (params : List String) :
    Tracks last [.token .identifier, .moreParams] [.token .rparen] tokens
      (Function.parseParams ending params tokens) := by
  induction params, tokens using Function.parseParams.induct with
  | case1 params tokens inductionHypothesis =>
      rw [Function.parseParams]
      refine (tracks_expect ended isLast (by decide)).bind fun token _ => ?_
      refine .check (semantic_checkParam params token.value) fun param => ?_
      refine tracks_accept ended (by decide) rfl (fun comma => ?_) fun noComma => ?_
      · exact (inductionHypothesis token param comma).bind fun _ _ => .ok .refl
      · exact .ok (moves_last_param isLast noComma)

theorem tracks_parseSignature (goals : List Goal) :
    Tracks last (.token .lparen :: .params :: goals) goals tokens
      (Function.parseSignature ending tokens) := by
  refine (tracks_expect ended isLast (by decide)).bind fun opening _ => ?_
  refine tracks_accept ended (by decide) rfl (fun _ => .ok .refl) fun occupied => ?_
  refine Tracks.behind ?_ ((moves_params isLast occupied).above goals)
  refine ((tracks_parseParams isLast ended []).above goals).bind fun params _ => ?_
  exact (tracks_expect ended isLast (by decide)).bind fun _ _ => .ok .refl

theorem tracks_parse_function
    (functions : List Function) (created : Nat) (goals : List Goal) :
    Tracks last
      (.token .identifier :: .token .lparen :: .params :: .token .lbrace ::
        .stmts :: .token .rbrace :: goals)
      goals tokens (Function.parse ending functions created tokens) := by
  refine (tracks_expect ended isLast (by decide)).bind fun word _ => ?_
  refine .check (semantic_checkName functions word.value) fun name => ?_
  refine (tracks_parseSignature isLast ended _).bind fun params _ => ?_
  refine (tracks_expect ended isLast (by decide)).bind fun opening _ => ?_
  have bodyTracks :=
    tracks_parseMany isLast
      ⟨⟨ending, functions.map Function.callee⟩, some name, none⟩ created
      opening.rest ended
  refine
    (bodyTracks.above (.token .rbrace :: goals)).bind fun body _ => ?_
  exact (tracks_expect ended isLast (by decide)).bind fun _ _ => .ok .refl

theorem tracks_parseFunctions (functions : List Function) (created : Nat) :
    Tracks last [.definitions] [] tokens
      (Program.parseFunctions ending functions created tokens) := by
  induction functions, created, tokens using Program.parseFunctions.induct with
  | case1 functions created tokens inductionHypothesis =>
      rw [Program.parseFunctions]
      refine tracks_accept ended (by decide) rfl (fun word => ?_) fun absent => ?_
      · refine
          (tracks_parse_function isLast ended functions created
            [.definitions]).bind fun function _ => ?_
        exact (inductionHypothesis word function).bind fun _ _ => .ok .refl
      · exact .ok (.skip isLast rfl (if_neg absent))

/-- Tokens that are not read as a program for a fault of the grammar are refused at the
reported place. -/
theorem refused_of_ofStream
    (inner : ∀ token ∈ tokens, token.kind ≠ .eof)
    {report : Diagnostic}
    (failed : Program.ofStream ⟨tokens, ending⟩ = .error report)
    (syntactic : report.stage = .syntactic) :
    ∃ token,
      run start (tokens ++ [last]) = .error token ∧
        token.position = report.position := by
  have functionsTrack :
      Tracks last [.definitions] [] tokens
        (Program.parseFunctions ending [] 0 tokens) :=
    tracks_parseFunctions isLast ended [] 0
  unfold Program.ofStream at failed
  cases functionsRead : Program.parseFunctions ending [] 0 tokens with
  | error fault =>
      rw [functionsRead] at functionsTrack
      simp only [functionsRead] at failed
      cases failed
      exact functionsTrack.exists_refused syntactic [.stmts, .token .eof]
  | ok functions =>
      rw [functionsRead] at functionsTrack
      simp only [functionsRead, Token.ok_bind] at failed
      have mainTracks :=
        tracks_parseMany isLast
          ⟨⟨ending, functions.value.1.map Function.callee⟩, none, none⟩
          functions.value.2 functions.rest ended
      have first := functionsTrack.moves [.stmts, .token .eof]
      rw [start]
      cases mainRead :
          Stmt.parseMany
            ⟨⟨ending, functions.value.1.map Function.callee⟩, none, none⟩
            functions.value.2 functions.rest with
      | error fault =>
          rw [mainRead] at failed mainTracks
          cases failed
          obtain ⟨token, refused, place⟩ :=
            mainTracks.exists_refused syntactic [.token .eof]
          exact ⟨token, first.trans refused, place⟩
      | ok main =>
          rw [mainRead] at mainTracks
          simp only [mainRead, Token.ok_bind] at failed
          have left := inner_of_read inner functionsRead mainRead
          have second := mainTracks.moves [.token .eof]
          -- Only the end of the input is left to ask for, and a token that is left
          -- is none.
          cases rest : main.rest with
          | nil =>
              rw [rest, ended] at failed
              cases failed
          | cons token behind =>
              rw [rest] at failed left second
              cases failed
              refine ⟨token, first.trans (second.trans ?_), rfl⟩
              exact run_of_refuse (if_neg (left token List.mem_cons_self)) rfl

end Programs

/-! ## The place of a syntax error -/

/-- What stands before a refused token is completed by some tokens and the end of the
input, since it does not contain this end. -/
theorem exists_completion_before
    {tokens front rest : List Token} {last refused : Token}
    (inner : ∀ token ∈ tokens, token.kind ≠ .eof)
    (split : tokens ++ [last] = front ++ refused :: rest)
    (completable : ∃ later, accepts (front ++ later) = true) :
    ∃ later final,
      final.kind = .eof ∧ accepts (front ++ later ++ [final]) = true := by
  obtain ⟨later, accepted⟩ := completable
  obtain ⟨tree, derived⟩ := (accepts_iff_derives _).mp accepted
  obtain ⟨all, final, _, same, isFinal, _⟩ := derived
  have inside : front <+: tokens := by
    have short := congrArg List.length split
    simp only [List.length_append, List.length_cons, List.length_nil] at short
    exact
      List.prefix_of_prefix_length_le ⟨refused :: rest, split.symm⟩
        (List.prefix_append _ _) (by omega)
  rcases List.eq_nil_or_concat later with rfl | ⟨others, other, rfl⟩
  · rw [List.append_nil] at same
    have member : final ∈ front := by simp [same]
    exact (inner final (inside.subset member) isFinal).elim
  · rw [List.concat_eq_append, ← List.append_assoc] at same accepted
    obtain ⟨_, sameLast⟩ := List.append_inj' same rfl
    cases sameLast
    exact ⟨others, final, isFinal, accepted⟩

/-- The recognizer accepts what derives from the grammar, which is what is read as a
program apart from the checks of `Surface.Program.Valid`.  A text that is cut into
tokens but not read for a fault of the grammar is reported at a token that cannot
follow: the tokens before it can be completed to a sequence that the recognizer
accepts, and no sequence that begins with them and this token is accepted. -/
theorem syntax_error_at_first_refused_token :
    (∀ sequence,
      accepts sequence = true ↔
        ∃ tree : Surface.Program, tree.Derives sequence) ∧
    (∀ (tokens : List Token) (position : Position),
      (∃ program,
          Program.ofStream ⟨tokens, .ok (Token.endOfInput position)⟩ =
            .ok program) ↔
        ∃ tree : Surface.Program,
          tree.Derives (tokens ++ [Token.endOfInput position]) ∧ tree.Valid) ∧
    ∀ (source : String) (sequence : List Token) (report : Diagnostic),
      Token.tokenize source = .ok sequence →
        Program.parse source = .error report →
          report.stage = .syntactic →
            ∃ index token,
              sequence[index]? = some token ∧
                token.position = report.position ∧
                (∃ later final,
                  final.kind = .eof ∧
                    accepts (sequence.take index ++ later ++ [final]) = true) ∧
                ∀ later, accepts (sequence.take (index + 1) ++ later) = false := by
  refine ⟨accepts_iff_derives, ?_, ?_⟩
  · intro tokens position
    have isLast : (Token.endOfInput position).kind = .eof := rfl
    exact Program.exists_ofStream_iff isLast rfl
  · intro source sequence report tokenized failed syntactic
    obtain ⟨last, ended, rfl⟩ := Token.exists_ending_of_tokenize tokenized
    have isLast := Token.Stream.kind_of_ending_ofLines ended
    obtain ⟨token, refused, place⟩ :=
      refused_of_ofStream isLast ended (fun _ => kind_ne_eof_of_mem) failed
        syntactic
    obtain ⟨front, rest, split, completable, stuck⟩ :=
      completable_up_to_refusal refused
    refine ⟨front.length, token, ?_, place, ?_, fun later => ?_⟩
    · simp [split]
    · rw [split, List.take_left]
      exact
        exists_completion_before (fun _ => kind_ne_eof_of_mem) split completable
    · rw [split, List.take_length_add_append, List.append_assoc]
      exact stuck later

/-- An index that is not closed, in the body of a loop. -/
theorem syntax_error_at_first_refused_token_of_open_bracket :
    ∃ sequence index token,
      Token.tokenize "while (x) y[1 = 2" = .ok sequence ∧
        sequence[index]? = some token ∧ token.position = ⟨1, 15⟩ ∧
        (∃ later final,
          final.kind = .eof ∧
            accepts (sequence.take index ++ later ++ [final]) = true) ∧
        ∀ later, accepts (sequence.take (index + 1) ++ later) = false := by
  obtain ⟨sequence, tokenized, _⟩ :=
    exists_ok_of_any
      (show ((Token.tokenize "while (x) y[1 = 2").toOption.any fun _ => true) =
          true by
        decide +kernel)
  have failed :
      Program.parse "while (x) y[1 = 2" =
        .error ((Fault.expected .rbracket).reportAt ⟨1, 15⟩) :=
    eq_error_of_fails (by decide +kernel)
  obtain ⟨index, token, found, place, completable, stuck⟩ :=
    syntax_error_at_first_refused_token.2.2 _ sequence _ tokenized failed rfl
  exact ⟨sequence, index, token, tokenized, found, place, completable, stuck⟩

end FlatCode.Recognizer
