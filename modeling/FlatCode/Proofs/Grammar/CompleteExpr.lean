import FlatCode.Proofs.Grammar.Level

/-!
# Every derivation of an expression is read

Reading takes exactly the tokens of a derivation, if what stands behind them cannot
be taken for a part of them: behind a name no parenthesis or bracket may come next,
and behind operands no operator that binds tighter than the level does.

The induction is on derivations.  In a derivation the operators of a level group to
the left, while a reader starts at the leftmost operand and then goes on.  So the
statement about a level is open at its end: whatever going on behind the derivation
gives is what reading gives as a whole.
-/

namespace FlatCode.Token

open Surface (nextKind)

/-! ## Readers that succeed -/

/-- A reader succeeds with the given value and leaves the given tokens. -/
def Reads
    {α : Type} {limit : Nat} (result : Except Diagnostic (Parsed α limit))
    (value : α) (rest : List Token) : Prop :=
  ∃ parsed, result = .ok parsed ∧ parsed.value = value ∧ parsed.rest = rest

/-- A reader goes on behind one that succeeds. -/
theorem Reads.bind
    {α β : Type} {limit bound : Nat}
    {result : Except Diagnostic (Parsed α limit)}
    {next : Parsed α limit → Except Diagnostic (Parsed β bound)}
    {first : α} {last : β} {middle rest : List Token}
    (reads : Reads result first middle)
    (later : ∀ parsed, parsed.value = first → parsed.rest = middle →
      Reads (next parsed) last rest) :
    Reads (result >>= next) last rest := by
  obtain ⟨parsed, rfl, value, behind⟩ := reads
  exact later parsed value behind

theorem ok_bind
    {ε α β : Type} (value : α) (next : α → Except ε β) :
    (Except.ok value >>= next) = next value := rfl

section Readers

variable {ending : Ending} {kind : Kind} {token : Token}
  {tokens rest : List Token}

theorem expect_cons (fits : token.kind = kind) :
    expect ending kind (token :: rest) = .ok (.stay token rest) :=
  if_pos fits

theorem reads_expect
    (split : tokens = token :: rest) (fits : token.kind = kind) :
    Reads (expect ending kind tokens) token rest := by
  subst split
  exact ⟨_, expect_cons fits, rfl, rfl⟩

theorem accept_cons (fits : token.kind = kind) :
    accept ending kind (token :: rest) = .ok (some (.stay token rest)) :=
  if_pos fits

theorem exists_accept
    (split : tokens = token :: rest) (fits : token.kind = kind) :
    ∃ parsed, accept ending kind tokens = .ok (some parsed) ∧
      parsed.value = token ∧ parsed.rest = rest := by
  subst split
  exact ⟨_, accept_cons fits, rfl, rfl⟩

theorem accept_eq_none
    {last : Token} (ended : ending = .ok last)
    (foreign : nextKind tokens ≠ kind) :
    accept ending kind tokens = .ok none := by
  subst ended
  cases tokens with
  | nil =>
      rfl
  | cons token rest =>
      exact if_neg foreign

/-- The token that comes next has the kind that the grammar looks at. -/
theorem exists_peek
    {last : Token} (ended : ending = .ok last) (isLast : last.kind = .eof)
    (tokens : List Token) :
    ∃ next, peek ending tokens = .ok next ∧ next.kind = nextKind tokens := by
  subst ended
  cases tokens with
  | nil =>
      exact ⟨last, rfl, isLast⟩
  | cons token rest =>
      exact ⟨token, rfl, rfl⟩

end Readers

end FlatCode.Token

namespace FlatCode.Surface

open Token (Kind Parsed Reads reads_expect accept_cons exists_accept
  accept_eq_none ok_bind)
open FlatCode.Expr (Context parseLevels parseOperators parseOperand parseIndex
  parseCall parseArguments)

/-! ## How expressions start and end -/

/-- The kinds of tokens with which an operand starts. -/
def operandStarts : List Kind :=
  [.number, .identifier, .lparen]

/-- Nothing comes next that makes a name the start of a call or of a load. -/
def Detached (after : List Token) : Prop :=
  nextKind after ∉ [Kind.lparen, .lbracket]

theorem OperandDerives.starts
    {tree : Expr} {before after : List Token}
    (derived : OperandDerives tree before after) :
    nextKind before ∈ operandStarts := by
  cases derived <;> simp_all [operandStarts]

theorem LevelDerives.starts
    {levels : List (List Kind)} {tree : Expr} {before after : List Token} :
    LevelDerives levels tree before after →
      nextKind before ∈ unarySigns ++ operandStarts
  | .signed (.nil _) operand =>
      List.mem_append_right _ operand.starts
  | .signed (.cons isSign _) _ =>
      List.mem_append_left _ isSign
  | .tighter _ inner =>
      inner.starts
  | .binary lhs _ _ =>
      lhs.starts

theorem ArgumentsDerive.starts
    {trees : List Expr} {before after : List Token}
    (derived : ArgumentsDerive trees before after) :
    nextKind before ∈ unarySigns ++ operandStarts := by
  cases derived with
  | last first =>
      exact first.starts
  | more first _ _ =>
      exact first.starts

theorem detached_of_sign
    {sign : Token} {rest : List Token}
    (member : sign.kind ∈ (Level.signsAll Level.table).flatten) :
    Detached (sign :: rest) := by
  have apart :
      ∀ kind ∈ (Level.signsAll Level.table).flatten,
        kind ∉ [Kind.lparen, .lbracket] := by
    decide
  exact apart sign.kind member

/-! ## Runs of unary operators -/

theorem extend?_of_mem
    {sign : Kind} (member : sign ∈ unarySigns) (run : List Unary) :
    Unary.extend? run sign = some (extendRun run sign) := by
  simp only [unarySigns, List.mem_cons, List.not_mem_nil, or_false] at member
  rcases member with rfl | rfl | rfl | rfl <;> rfl

theorem extend?_of_not_mem
    {sign : Kind} (foreign : sign ∉ unarySigns) (run : List Unary) :
    Unary.extend? run sign = none := by
  unfold Unary.extend?
  split <;> first | rfl | exact absurd (by decide) foreign

/-- A run is read up to the first token that is no unary operator. -/
theorem readRun_of_signs
    {signs : List Kind} {before middle : List Token}
    (derived : SignsDerive signs before middle)
    (stops : nextKind middle ∉ unarySigns) (run : List Unary) :
    (Unary.readRun run before).value = signs.foldl extendRun run ∧
      (Unary.readRun run before).rest = middle := by
  induction derived generalizing run with
  | nil after =>
      cases after with
      | nil =>
          exact ⟨rfl, rfl⟩
      | cons token rest =>
          have none := extend?_of_not_mem stops run
          rw [Token.nextKind_cons] at none
          simp [Unary.readRun, none]
  | @cons token signs rest after isSign _ inductionHypothesis =>
      simp only [Unary.readRun, extend?_of_mem isSign]
      exact inductionHypothesis stops (extendRun run token.kind)

/-! ## One statement for each class of derivations -/

section Statements

variable (context : Context)

/-- Reading that has come to the end of an operand `built` of the given levels,
and goes on from there, succeeds. -/
def GoesOn (levels : List Level) (built : FlatCode.Expr) (after : List Token)
    (value : FlatCode.Expr) (rest : List Token) : Prop :=
  match levels with
  | [] => value = built ∧ rest = after
  | level :: tighter =>
      Reads (parseOperators context level tighter built after) value rest

/-- The tokens of a derived expression are read, and so is what goes on behind
it. -/
def LevelTaken (signs : List (List Kind)) (tree : Expr)
    (before after : List Token) : Prop :=
  ∀ levels built value rest,
    levels <:+ Level.table → Level.signsAll levels = signs →
      tree.build .reading context.functions = some built →
        Detached after →
          nextKind after ∉ (Level.signsAll levels.tail).flatten →
            GoesOn context levels built after value rest →
              Reads (parseLevels context levels before) value rest

def OperandTaken (tree : Expr) (before after : List Token) : Prop :=
  ∀ built,
    tree.build .reading context.functions = some built →
      Detached after → Reads (parseOperand context before) built after

def ArgumentsTaken (trees : List Expr) (before after : List Token) : Prop :=
  ∀ values,
    Expr.buildAll .reading context.functions trees = some values →
      nextKind after = .rparen →
        Reads (parseArguments context before)
          (values.map FlatCode.Expr.normalize) after

end Statements

/-! ## One step for each production -/

section Steps

variable {context : Context} {last : Token}

theorem levelTaken_signed
    {signs : List Kind} {operand : Expr} {before middle after : List Token}
    (run : SignsDerive signs before middle)
    (derived : OperandDerives operand middle after)
    (taken : OperandTaken context operand middle after) :
    LevelTaken context [] (.signed signs operand) before after := by
  intro levels built value rest _ none builds detached _ goesOn
  obtain rfl : levels = [] := List.map_eq_nil_iff.mp none
  obtain ⟨rfl, rfl⟩ := goesOn
  rw [Expr.build, Option.bind_eq_bind, Option.bind_eq_some_iff] at builds
  obtain ⟨inner, innerBuilds, builds⟩ := builds
  cases builds
  have stops : nextKind middle ∉ unarySigns := by
    have apart : ∀ kind ∈ operandStarts, kind ∉ unarySigns := by decide
    exact apart _ derived.starts
  obtain ⟨folded, left⟩ := readRun_of_signs run stops []
  have operandReads := taken inner innerBuilds detached
  rw [← left] at operandReads
  rw [parseLevels]
  apply operandReads.bind
  rintro parsed rfl rfl
  refine ⟨_, rfl, ?_, rfl⟩
  rw [← folded]
  rfl

theorem operandTaken_number
    {token : Token} {after : List Token} (number : token.kind = .number) :
    OperandTaken context (.number token.payload) (token :: after) after := by
  intro built builds _
  rw [Expr.build] at builds
  cases builds
  rw [parseOperand]
  simp only [number]
  exact ⟨_, rfl, rfl, rfl⟩

theorem resolve_of_resolve?
    {name : Token} {callable : Callable}
    (resolved :
      Callable.resolve? context.functions name.payload = some callable) :
    context.resolve name = .ok callable := by
  rw [Context.resolve, resolved]

theorem finishCall_of_call?
    {callable : Callable} {args : List FlatCode.Expr} {close : Token}
    {built : FlatCode.Expr} (called : callable.call? args = some built) :
    FlatCode.Expr.finishCall callable args close = .ok built := by
  rw [FlatCode.Expr.finishCall, called]

/-- A call is read as soon as its argument list is. -/
theorem operandTaken_call
    {name opening : Token} {args : List Expr} {rest after : List Token}
    (identifier : name.kind = .identifier) (opens : opening.kind = .lparen)
    (listTaken :
      ∀ callable values built,
        Expr.buildAll .reading context.functions args = some values →
          callable.call? (values.map FlatCode.Expr.normalize) = some built →
            Reads (parseCall context callable rest) built after) :
    OperandTaken context (.call name.payload args)
      (name :: opening :: rest) after := by
  intro built builds _
  rw [Expr.build] at builds
  obtain ⟨callable, resolved, builds⟩ := Option.bind_eq_some_iff.mp builds
  obtain ⟨values, valuesBuild, called⟩ := Option.bind_eq_some_iff.mp builds
  rw [parseOperand]
  simp only [identifier, accept_cons opens, ok_bind,
    resolve_of_resolve? resolved]
  apply (listTaken callable values built valuesBuild called).bind
  rintro _ rfl rfl
  exact ⟨_, rfl, rfl, rfl⟩

theorem reads_parseCall_empty
    {close : Token} {after : List Token} {callable : Callable}
    {values : List FlatCode.Expr} {built : FlatCode.Expr}
    (closes : close.kind = .rparen)
    (builds : Expr.buildAll .reading context.functions [] = some values)
    (called :
      callable.call? (values.map FlatCode.Expr.normalize) = some built) :
    Reads (parseCall context callable (close :: after)) built after := by
  rw [Expr.buildAll] at builds
  cases builds
  rw [List.map_nil] at called
  rw [parseCall, accept_cons closes]
  simp only [ok_bind, Parsed.value_stay]
  rw [finishCall_of_call? called]
  exact ⟨_, rfl, rfl, rfl⟩

-- The remaining readers look at the token behind what they read, which may be the
-- end of the input.
variable (ended : context.ending = .ok last)

include ended

/-- At a token that is no operator of a level, operators end. -/
theorem reads_parseOperators_stop
    {level : Level} {tighter : List Level} {built : FlatCode.Expr}
    {after : List Token} (foreign : nextKind after ∉ level.signs) :
    Reads (parseOperators context level tighter built after) built after := by
  rw [parseOperators.eq_def]
  cases after with
  | nil =>
      rw [ended]
      exact ⟨_, rfl, rfl, rfl⟩
  | cons token rest =>
      have none := Level.operator?_eq_none_iff.mpr foreign
      rw [Token.nextKind_cons] at none
      simp only [none]
      exact ⟨_, rfl, rfl, rfl⟩

/-- Where no operator of the levels comes next, reading ends with the operand. -/
theorem goesOn_stop
    {levels : List Level} {built : FlatCode.Expr} {after : List Token}
    (stops : nextKind after ∉ (Level.signsAll levels).flatten) :
    GoesOn context levels built after built after := by
  cases levels with
  | nil =>
      exact ⟨rfl, rfl⟩
  | cons level tighter =>
      apply reads_parseOperators_stop ended
      intro member
      exact stops (List.mem_append_left _ member)

/-- The tokens of a derived expression are read if no operator of its levels comes
next. -/
theorem LevelTaken.reads
    {levels : List Level} {tree : Expr} {built : FlatCode.Expr}
    {before after : List Token}
    (taken : LevelTaken context (Level.signsAll levels) tree before after)
    (within : levels <:+ Level.table)
    (builds : tree.build .reading context.functions = some built)
    (detached : Detached after)
    (stops : nextKind after ∉ (Level.signsAll levels).flatten) :
    Reads (parseLevels context levels before) built after := by
  apply taken levels built built after within rfl builds detached
  · intro member
    apply stops
    cases levels with
    | nil =>
        exact member
    | cons level tighter =>
        exact List.mem_append_right _ member
  · exact goesOn_stop ended stops

/-- In front of a token that neither is an operator nor makes a name a call or a
load, a whole expression is read. -/
theorem LevelTaken.reads_parse
    {tree : Expr} {built : FlatCode.Expr} {before after : List Token}
    (taken : LevelTaken context binaryLevels tree before after)
    (builds : tree.build .reading context.functions = some built)
    (detached : Detached after)
    (stops : nextKind after ∉ binaryLevels.flatten) :
    Reads (FlatCode.Expr.parse context before) built after := by
  rw [← Level.signsAll_table] at taken stops
  exact taken.reads ended (List.suffix_refl _) builds detached stops

theorem levelTaken_tighter
    {sign : List Kind} {signs : List (List Kind)} {tree : Expr}
    {before after : List Token}
    (taken : LevelTaken context signs tree before after) :
    LevelTaken context (sign :: signs) tree before after := by
  intro levels built value rest within same builds detached stops goesOn
  cases levels with
  | nil =>
      cases same
  | cons level tighter =>
      cases same
      have first :=
        taken.reads ended (Level.tighter_within within) builds detached stops
      rw [parseLevels]
      apply first.bind
      rintro parsed rfl rfl
      apply goesOn.bind
      rintro whole rfl rfl
      exact ⟨_, rfl, rfl, rfl⟩

theorem levelTaken_binary
    {level : List Kind} {levels : List (List Kind)} {lhs rhs : Expr}
    {sign : Token} {before middle after : List Token}
    (member : sign.kind ∈ level)
    (lhsTaken :
      LevelTaken context (level :: levels) lhs before (sign :: middle))
    (rhsTaken : LevelTaken context levels rhs middle after) :
    LevelTaken context (level :: levels) (.binary sign.kind lhs rhs)
      before after := by
  intro all built value rest within same builds detached stops goesOn
  cases all with
  | nil =>
      cases same
  | cons own tighter =>
      cases same
      obtain ⟨operator, found⟩ := Level.exists_operator? member
      rw [Expr.build, Level.levelOf?_eq within found, Option.bind_eq_bind,
        Option.bind_some] at builds
      obtain ⟨left, leftBuilds, builds⟩ := Option.bind_eq_some_iff.mp builds
      obtain ⟨right, rightBuilds, builds⟩ := Option.bind_eq_some_iff.mp builds
      cases builds
      have inTable : sign.kind ∈ (Level.signsAll Level.table).flatten := by
        obtain ⟨looser, split⟩ := within
        rw [← split, Level.signsAll, List.map_append, List.flatten_append]
        exact List.mem_append_right _ (List.mem_append_left _ member)
      have operand :=
        rhsTaken.reads ended (Level.tighter_within within) rightBuilds detached
          stops
      -- Reading the left operand goes on with the sign, so it takes the sign and the
      -- right operand, and goes on as reading the whole does.
      apply
        lhsTaken (own :: tighter) left value rest within rfl leftBuilds
          (detached_of_sign inTable) (Level.not_mem_tighter within member)
      rw [GoesOn, parseOperators]
      simp only [found]
      apply operand.bind
      rintro parsed rfl rfl
      apply goesOn.bind
      rintro whole rfl rfl
      exact ⟨_, rfl, rfl, rfl⟩

theorem operandTaken_word
    {token : Token} {after : List Token}
    (identifier : token.kind = .identifier) :
    OperandTaken context (.word token.payload) (token :: after) after := by
  intro built builds detached
  rw [Expr.build] at builds
  cases builds
  have noCall : nextKind after ≠ .lparen := by
    intro same
    exact detached (by simp [same])
  have noLoad : nextKind after ≠ .lbracket := by
    intro same
    exact detached (by simp [same])
  rw [parseOperand]
  simp only [identifier, accept_eq_none ended noCall,
    accept_eq_none ended noLoad]
  exact ⟨_, rfl, rfl, rfl⟩

/-- A closing bracket or parenthesis ends an expression. -/
theorem LevelTaken.reads_of_close
    {tree : Expr} {built : FlatCode.Expr} {before after : List Token}
    (taken : LevelTaken context binaryLevels tree before after)
    (builds : tree.build .reading context.functions = some built)
    (closes : nextKind after ∈ [Kind.rparen, .rbracket, .comma]) :
    Reads (FlatCode.Expr.parse context before) built after := by
  have apart :
      ∀ kind ∈ [Kind.rparen, .rbracket, .comma],
        kind ∉ [Kind.lparen, .lbracket] ∧ kind ∉ binaryLevels.flatten := by
    decide
  obtain ⟨detached, stops⟩ := apart _ closes
  exact taken.reads_parse ended builds detached stops

theorem operandTaken_index
    {name opening close : Token} {inner : Expr} {rest after : List Token}
    (identifier : name.kind = .identifier) (opens : opening.kind = .lbracket)
    (taken : LevelTaken context binaryLevels inner rest (close :: after))
    (closes : close.kind = .rbracket) :
    OperandTaken context (.index name.payload inner)
      (name :: opening :: rest) after := by
  intro built builds _
  rw [Expr.build, Option.bind_eq_bind, Option.bind_eq_some_iff] at builds
  obtain ⟨index, indexBuilds, builds⟩ := builds
  cases builds
  have indexReads :=
    taken.reads_of_close ended indexBuilds (by simp [closes])
  have noCall : nextKind (opening :: rest) ≠ .lparen := by simp [opens]
  have load :
      Reads (parseIndex context name.payload rest)
        (.ofLoad name.payload index.normalize) after := by
    rw [parseIndex]
    apply indexReads.bind
    rintro parsed rfl split
    apply (reads_expect split closes).bind
    rintro _ _ rfl
    exact ⟨_, rfl, rfl, rfl⟩
  rw [parseOperand]
  simp only [identifier, accept_eq_none ended noCall, accept_cons opens,
    ok_bind]
  apply load.bind
  intro _ loaded left
  exact ⟨_, rfl, loaded, left⟩

theorem reads_parseCall
    {close : Token} {args : List Expr} {before after : List Token}
    {callable : Callable} {values : List FlatCode.Expr}
    {built : FlatCode.Expr}
    (derived : ArgumentsDerive args before (close :: after))
    (taken : ArgumentsTaken context args before (close :: after))
    (closes : close.kind = .rparen)
    (builds : Expr.buildAll .reading context.functions args = some values)
    (called :
      callable.call? (values.map FlatCode.Expr.normalize) = some built) :
    Reads (parseCall context callable before) built after := by
  have some : nextKind before ≠ .rparen := by
    intro same
    have starts := derived.starts
    rw [same] at starts
    revert starts
    decide
  rw [parseCall, accept_eq_none ended some]
  simp only [ok_bind]
  apply (taken values builds closes).bind
  rintro parsed normalized split
  apply (reads_expect split closes).bind
  rintro _ _ rfl
  rw [normalized, finishCall_of_call? called]
  exact ⟨_, rfl, rfl, rfl⟩

theorem operandTaken_group
    {opening close : Token} {inner : Expr} {rest after : List Token}
    (opens : opening.kind = .lparen)
    (taken : LevelTaken context binaryLevels inner rest (close :: after))
    (closes : close.kind = .rparen) :
    OperandTaken context (.group inner) (opening :: rest) after := by
  intro built builds _
  rw [Expr.build] at builds
  rw [parseOperand]
  simp only [opens]
  apply (taken.reads_of_close ended builds (by simp [closes])).bind
  rintro parsed rfl split
  apply (reads_expect split closes).bind
  rintro _ _ rfl
  exact ⟨_, rfl, rfl, rfl⟩

theorem argumentsTaken_last
    {tree : Expr} {before after : List Token}
    (taken : LevelTaken context binaryLevels tree before after) :
    ArgumentsTaken context [tree] before after := by
  intro values builds closes
  rw [Expr.buildAll] at builds
  obtain ⟨value, valueBuilds, builds⟩ := Option.bind_eq_some_iff.mp builds
  rw [Expr.buildAll] at builds
  cases builds
  have noComma : nextKind after ≠ .comma := by simp [closes]
  rw [parseArguments]
  apply (taken.reads_of_close ended valueBuilds (by simp [closes])).bind
  rintro parsed rfl rfl
  rw [accept_eq_none ended noComma]
  exact ⟨_, rfl, rfl, rfl⟩

theorem argumentsTaken_more
    {tree : Expr} {others : List Expr} {comma : Token}
    {before rest after : List Token}
    (taken : LevelTaken context binaryLevels tree before (comma :: rest))
    (separates : comma.kind = .comma)
    (othersTaken : ArgumentsTaken context others rest after) :
    ArgumentsTaken context (tree :: others) before after := by
  intro values builds closes
  rw [Expr.buildAll] at builds
  obtain ⟨value, valueBuilds, builds⟩ := Option.bind_eq_some_iff.mp builds
  obtain ⟨later, laterBuild, builds⟩ := Option.bind_eq_some_iff.mp builds
  cases builds
  have laterReads := othersTaken later laterBuild closes
  rw [parseArguments]
  apply (taken.reads_of_close ended valueBuilds (by simp [separates])).bind
  rintro parsed rfl split
  obtain ⟨separator, accepted, _, rfl⟩ :=
    exists_accept split separates
  rw [accepted]
  simp only [ok_bind]
  apply laterReads.bind
  rintro _ normalized rfl
  refine ⟨_, rfl, ?_, rfl⟩
  exact congrArg (parsed.value.normalize :: ·) normalized

end Steps

section Derivations

variable {context : Context} {last : Token}

mutual

theorem levelTaken_of_derives
    (ended : context.ending = .ok last)
    {levels : List (List Kind)} {tree : Expr} {before after : List Token} :
    LevelDerives levels tree before after →
      LevelTaken context levels tree before after
  | .signed run operand =>
      levelTaken_signed run operand (operandTaken_of_derives ended operand)
  | .tighter _ inner =>
      levelTaken_tighter ended (levelTaken_of_derives ended inner)
  | .binary lhs member rhs =>
      levelTaken_binary ended member (levelTaken_of_derives ended lhs)
        (levelTaken_of_derives ended rhs)

theorem operandTaken_of_derives
    (ended : context.ending = .ok last)
    {tree : Expr} {before after : List Token} :
    OperandDerives tree before after → OperandTaken context tree before after
  | .number _ number =>
      operandTaken_number number
  | .word _ identifier =>
      operandTaken_word ended identifier
  | .index identifier opens inner closes =>
      operandTaken_index ended identifier opens
        (levelTaken_of_derives ended inner) closes
  | .callEmpty _ identifier opens closes =>
      operandTaken_call identifier opens fun _ _ _ =>
        reads_parseCall_empty closes
  | .call identifier opens args closes =>
      operandTaken_call identifier opens fun _ _ _ =>
        reads_parseCall ended args (argumentsTaken_of_derive ended args) closes
  | .group opens inner closes =>
      operandTaken_group ended opens (levelTaken_of_derives ended inner) closes

theorem argumentsTaken_of_derive
    (ended : context.ending = .ok last)
    {trees : List Expr} {before after : List Token} :
    ArgumentsDerive trees before after →
      ArgumentsTaken context trees before after
  | .last first =>
      argumentsTaken_last ended (levelTaken_of_derives ended first)
  | .more first separates others =>
      argumentsTaken_more ended (levelTaken_of_derives ended first) separates
        (argumentsTaken_of_derive ended others)

end

end Derivations

end FlatCode.Surface
