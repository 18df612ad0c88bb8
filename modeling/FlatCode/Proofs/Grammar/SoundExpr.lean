import FlatCode.Proofs.Grammar.Level
import FlatCode.Proofs.Reading.Expr

/-!
# Every expression that is read has a derivation

The tokens that a reader takes are derived from the grammar, and the tree of the
derivation is the expression that the reader gives.  `LevelYields` and its
companions say this of a value and the two token lists around it, without the
derivation tree; there is one rule for each production.

The induction follows the readers.  A reader of operators continues an expression
that started further to the left, so the statement about it carries the derivation
of that expression along.
-/

namespace FlatCode.Surface

open Token (Kind Parsed accept expect)

/-! ## Derivations with their values -/

section Yields

variable (functions : List Callee)

/-- The tokens start with an expression of the given levels, which is built into
`value`. -/
def LevelYields (levels : List Level) (value : FlatCode.Expr)
    (before after : List Token) : Prop :=
  ∃ tree : Expr,
    LevelDerives (Level.signsAll levels) tree before after ∧
      tree.build .reading functions = some value

def OperandYields (value : FlatCode.Expr) (before after : List Token) : Prop :=
  ∃ tree : Expr,
    OperandDerives tree before after ∧
      tree.build .reading functions = some value

def ArgumentsYield (values : List FlatCode.Expr) (before after : List Token) :
    Prop :=
  ∃ trees : List Expr,
    ArgumentsDerive trees before after ∧
      Expr.buildAll .reading functions trees = some values

variable {functions} {value : FlatCode.Expr} {values : List FlatCode.Expr}
  {name opening close : Token} {before middle rest after : List Token}

theorem LevelYields.signed
    {signs : List Kind} (run : SignsDerive signs before middle)
    (operand : OperandYields functions value middle after) :
    LevelYields functions []
      (Unary.applyAll (signs.foldl extendRun []) value) before after := by
  obtain ⟨tree, derived, built⟩ := operand
  refine ⟨.signed signs tree, .signed run derived, ?_⟩
  rw [Expr.build, built]
  rfl

theorem LevelYields.tighter
    {levels : List Level} (level : Level)
    (yields : LevelYields functions levels value before after) :
    LevelYields functions (level :: levels) value before after := by
  obtain ⟨tree, derived, built⟩ := yields
  exact ⟨tree, .tighter level.signs derived, built⟩

theorem LevelYields.binary
    {level : Level} {tighter : List Level} {sign : Token} {operator : Operator}
    {lhs rhs : FlatCode.Expr}
    (within : level :: tighter <:+ Level.table)
    (found : level.operator? sign.kind = some operator)
    (left : LevelYields functions (level :: tighter) lhs before (sign :: middle))
    (right : LevelYields functions tighter rhs middle after) :
    LevelYields functions (level :: tighter) (level.combine operator lhs rhs)
      before after := by
  obtain ⟨leftTree, leftDerived, leftBuilt⟩ := left
  obtain ⟨rightTree, rightDerived, rightBuilt⟩ := right
  have member := Level.mem_signs_of_operator? found
  refine
    ⟨.binary sign.kind leftTree rightTree,
      .binary leftDerived member rightDerived, ?_⟩
  rw [Expr.build, Level.levelOf?_eq within found, leftBuilt, rightBuilt]
  rfl

theorem OperandYields.number (number : name.kind = .number) :
    OperandYields functions (.ofText name.payload) (name :: after) after :=
  ⟨.number name.payload, .number after number, by rw [Expr.build]⟩

theorem OperandYields.word (identifier : name.kind = .identifier) :
    OperandYields functions (.ofText name.payload) (name :: after) after :=
  ⟨.word name.payload, .word after identifier, by rw [Expr.build]⟩

theorem OperandYields.index
    (identifier : name.kind = .identifier) (opens : opening.kind = .lbracket)
    (inner :
      LevelYields functions Level.table value rest (close :: after))
    (closes : close.kind = .rbracket) :
    OperandYields functions (.ofLoad name.payload value.normalize)
      (name :: opening :: rest) after := by
  obtain ⟨tree, derived, built⟩ := inner
  refine
    ⟨.index name.payload tree, .index identifier opens derived closes, ?_⟩
  rw [Expr.build, built]
  rfl

theorem OperandYields.group
    (opens : opening.kind = .lparen)
    (inner :
      LevelYields functions Level.table value rest (close :: after))
    (closes : close.kind = .rparen) :
    OperandYields functions value (opening :: rest) after := by
  obtain ⟨tree, derived, built⟩ := inner
  refine ⟨.group tree, .group opens derived closes, ?_⟩
  rw [Expr.build, built]

/-- The arguments of a call up to its closing parenthesis, none or some. -/
def CallYields (functions : List Callee) (values : List FlatCode.Expr)
    (before after : List Token) : Prop :=
  ∃ close : Token, close.kind = .rparen ∧
    (values = [] ∧ before = close :: after ∨
      ArgumentsYield functions values before (close :: after))

theorem OperandYields.call
    {callable : Callable} {result : FlatCode.Expr}
    (identifier : name.kind = .identifier) (opens : opening.kind = .lparen)
    (resolved : Callable.resolve? functions name.payload = some callable)
    (args : CallYields functions values rest after)
    (called :
      callable.call? (values.map FlatCode.Expr.normalize) = some result) :
    OperandYields functions result (name :: opening :: rest) after := by
  obtain ⟨close, closes, ⟨rfl, rfl⟩ | ⟨trees, derived, built⟩⟩ := args
  · refine
      ⟨.call name.payload [],
        .callEmpty after identifier opens closes, ?_⟩
    rw [Expr.build, resolved, Expr.buildAll]
    exact called
  · refine
      ⟨.call name.payload trees, .call identifier opens derived closes, ?_⟩
    rw [Expr.build, resolved, built]
    exact called

theorem ArgumentsYield.last
    (yields : LevelYields functions Level.table value before after) :
    ArgumentsYield functions [value] before after := by
  obtain ⟨tree, derived, built⟩ := yields
  refine ⟨[tree], .last derived, ?_⟩
  rw [Expr.buildAll, built, Expr.buildAll]
  rfl

theorem ArgumentsYield.more
    {comma : Token} (separates : comma.kind = .comma)
    (yields :
      LevelYields functions Level.table value before (comma :: rest))
    (others : ArgumentsYield functions values rest after) :
    ArgumentsYield functions (value :: values) before after := by
  obtain ⟨tree, derived, built⟩ := yields
  obtain ⟨trees, othersDerived, othersBuilt⟩ := others
  refine ⟨tree :: trees, .more derived separates othersDerived, ?_⟩
  rw [Expr.buildAll, built, othersBuilt]
  rfl

end Yields

/-! ## One statement for each reader -/

open FlatCode.Expr (Context parseLevels parseOperators parseOperand parseIndex
  parseCall parseArguments)

variable (context : Context)

/-- Reading an expression of the given levels takes one, up to a token that is no
operator of these levels. -/
def LevelsRead (levels : List Level) (tokens : List Token) : Prop :=
  levels <:+ Level.table →
    ∀ parsed, parseLevels context levels tokens = .ok parsed →
      LevelYields context.functions levels parsed.value tokens parsed.rest ∧
        nextKind parsed.rest ∉ (Level.signsAll levels).flatten

/-- Reading operators goes on with the expression `lhs`, wherever it started. -/
def OperatorsRead (level : Level) (tighter : List Level) (lhs : FlatCode.Expr)
    (tokens : List Token) : Prop :=
  level :: tighter <:+ Level.table →
    nextKind tokens ∉ (Level.signsAll tighter).flatten →
      ∀ start,
        LevelYields context.functions (level :: tighter) lhs start tokens →
          ∀ parsed,
            parseOperators context level tighter lhs tokens = .ok parsed →
              LevelYields context.functions (level :: tighter) parsed.value
                  start parsed.rest ∧
                nextKind parsed.rest ∉
                  (Level.signsAll (level :: tighter)).flatten

def OperandRead (tokens : List Token) : Prop :=
  ∀ parsed, parseOperand context tokens = .ok parsed →
    OperandYields context.functions parsed.value tokens parsed.rest

def IndexRead (cell : String) (tokens : List Token) : Prop :=
  ∀ parsed, parseIndex context cell tokens = .ok parsed →
    ∃ index close,
      LevelYields context.functions Level.table index tokens
          (close :: parsed.rest) ∧
        close.kind = .rbracket ∧
        parsed.value = .ofLoad cell index.normalize

def CallRead (callable : Callable) (tokens : List Token) : Prop :=
  ∀ parsed, parseCall context callable tokens = .ok parsed →
    ∃ values,
      CallYields context.functions values tokens parsed.rest ∧
        callable.call? (values.map FlatCode.Expr.normalize) =
          some parsed.value

def ArgumentsRead (tokens : List Token) : Prop :=
  ∀ parsed, parseArguments context tokens = .ok parsed →
    ∃ values,
      ArgumentsYield context.functions values tokens parsed.rest ∧
        parsed.value = values.map FlatCode.Expr.normalize

variable {context}

/-! ## One step of each reader -/

/-- A run of unary operators that is read is folded sign by sign. -/
theorem exists_signs_of_readRun (run : List Unary) (tokens : List Token) :
    ∃ signs,
      SignsDerive signs tokens (Unary.readRun run tokens).rest ∧
        (Unary.readRun run tokens).value = signs.foldl extendRun run := by
  induction tokens generalizing run with
  | nil =>
      exact ⟨[], .nil [], rfl⟩
  | cons token rest inductionHypothesis =>
      rw [Unary.readRun]
      split
      · next longer extended =>
          obtain ⟨signs, derived, folded⟩ := inductionHypothesis longer
          have isSign : token.kind ∈ unarySigns := by
            unfold Unary.extend? at extended
            split at extended
            all_goals simp_all [unarySigns]
          refine ⟨token.kind :: signs, .cons isSign derived, ?_⟩
          rw [List.foldl_cons, extendRun, extended]
          exact folded
      · exact ⟨[], .nil _, rfl⟩

theorem levelsRead_nil
    {tokens : List Token}
    (operandRead : OperandRead context (Unary.readRun [] tokens).rest) :
    LevelsRead context [] tokens := by
  intro _ parsed read
  rw [parseLevels] at read
  obtain ⟨operand, operandParsed, read⟩ := bind_eq_ok_iff.mp read
  cases read
  obtain ⟨signs, derived, folded⟩ := exists_signs_of_readRun [] tokens
  have yields := LevelYields.signed derived (operandRead operand operandParsed)
  rw [← folded] at yields
  exact ⟨yields, by simp⟩

theorem levelsRead_cons
    {level : Level} {tighter : List Level} {tokens : List Token}
    (firstRead : LevelsRead context tighter tokens)
    (othersRead : ∀ first : Parsed FlatCode.Expr tokens.length,
      OperatorsRead context level tighter first.value first.rest) :
    LevelsRead context (level :: tighter) tokens := by
  intro within parsed read
  rw [parseLevels] at read
  obtain ⟨first, firstParsed, read⟩ := bind_eq_ok_iff.mp read
  obtain ⟨whole, wholeParsed, read⟩ := bind_eq_ok_iff.mp read
  cases read
  obtain ⟨yields, stops⟩ :=
    firstRead (Level.tighter_within within) first firstParsed
  exact
    othersRead first within stops tokens (yields.tighter level) whole
      wholeParsed

/-- At a token that is no operator of a level, the expression of the level ends. -/
theorem stops_of_foreign
    {level : Level} {tighter : List Level} {tokens : List Token}
    (foreign : level.operator? (nextKind tokens) = none)
    (stops : nextKind tokens ∉ (Level.signsAll tighter).flatten) :
    nextKind tokens ∉ (Level.signsAll (level :: tighter)).flatten := by
  rw [Level.signsAll_cons, List.flatten_cons, List.mem_append, not_or]
  exact ⟨Level.operator?_eq_none_iff.mp foreign, stops⟩

theorem operatorsRead_nil
    {level : Level} {tighter : List Level} {lhs : FlatCode.Expr} :
    OperatorsRead context level tighter lhs [] := by
  intro within stops start yields parsed read
  rw [parseOperators] at read
  obtain ⟨_, _, read⟩ := bind_eq_ok_iff.mp read
  cases read
  have foreign : level.operator? .eof = none := by
    obtain ⟨looser, split⟩ := within
    rw [Level.operator?_eq_none_iff]
    intro member
    have outside : Kind.eof ∉ (Level.signsAll Level.table).flatten := by decide
    apply outside
    rw [← split, Level.signsAll, List.map_append, List.flatten_append]
    exact List.mem_append_right _ (List.mem_append_left _ member)
  exact ⟨yields, stops_of_foreign foreign stops⟩

theorem operatorsRead_stop
    {level : Level} {tighter : List Level} {lhs : FlatCode.Expr}
    {token : Token} {rest : List Token}
    (foreign : level.operator? token.kind = none) :
    OperatorsRead context level tighter lhs (token :: rest) := by
  intro within stops start yields parsed read
  rw [parseOperators] at read
  simp only [foreign] at read
  cases read
  exact ⟨yields, stops_of_foreign foreign stops⟩

theorem operatorsRead_cons
    {level : Level} {tighter : List Level} {lhs : FlatCode.Expr}
    {token : Token} {rest : List Token} {operator : Operator}
    (own : level.operator? token.kind = some operator)
    (rhsRead : LevelsRead context tighter rest)
    (othersRead : ∀ rhs : Parsed FlatCode.Expr rest.length,
      OperatorsRead context level tighter
        (level.combine operator lhs rhs.value) rhs.rest) :
    OperatorsRead context level tighter lhs (token :: rest) := by
  intro within stops start yields parsed read
  rw [parseOperators] at read
  simp only [own] at read
  obtain ⟨rhs, rhsParsed, read⟩ := bind_eq_ok_iff.mp read
  obtain ⟨whole, wholeParsed, read⟩ := bind_eq_ok_iff.mp read
  cases read
  obtain ⟨rhsYields, rhsStops⟩ :=
    rhsRead (Level.tighter_within within) rhs rhsParsed
  have combined := LevelYields.binary within own yields rhsYields
  exact othersRead rhs within rhsStops start combined whole wholeParsed

theorem operandRead_nil : OperandRead context [] := by
  intro parsed read
  rw [parseOperand] at read
  obtain ⟨_, _, read⟩ := bind_eq_ok_iff.mp read
  cases read

theorem operandRead_parenthesis
    {token : Token} {rest : List Token} (opens : token.kind = .lparen)
    (innerRead : LevelsRead context Level.table rest) :
    OperandRead context (token :: rest) := by
  intro parsed read
  rw [parseOperand] at read
  simp only [opens] at read
  obtain ⟨inner, innerParsed, read⟩ := bind_eq_ok_iff.mp read
  obtain ⟨close, closeParsed, read⟩ := bind_eq_ok_iff.mp read
  cases read
  obtain ⟨split, closes⟩ := Token.eq_cons_of_expect closeParsed
  obtain ⟨yields, _⟩ := innerRead (List.suffix_refl _) inner innerParsed
  rw [split] at yields
  exact .group opens yields closes

theorem operandRead_number
    {token : Token} {rest : List Token} (number : token.kind = .number) :
    OperandRead context (token :: rest) := by
  intro parsed read
  rw [parseOperand] at read
  simp only [number] at read
  cases read
  exact .number number

theorem operandRead_identifier
    {token : Token} {rest : List Token}
    (identifier : token.kind = .identifier)
    (callRead :
      ∀ (opening : Parsed Token rest.length) (callable : Callable),
        CallRead context callable opening.rest)
    (indexRead : ∀ opening : Parsed Token rest.length,
      IndexRead context token.payload opening.rest) :
    OperandRead context (token :: rest) := by
  intro parsed read
  rw [parseOperand] at read
  simp only [identifier] at read
  obtain ⟨parenthesis, parenthesisParsed, read⟩ := bind_eq_ok_iff.mp read
  cases parenthesis with
  | some opening =>
      obtain ⟨callable, resolved, read⟩ := bind_eq_ok_iff.mp read
      obtain ⟨call, callParsed, read⟩ := bind_eq_ok_iff.mp read
      cases read
      obtain ⟨split, opens⟩ := Token.eq_cons_of_accept parenthesisParsed
      obtain ⟨values, args, called⟩ := callRead opening callable call callParsed
      have yields :=
        OperandYields.call identifier opens
          (FlatCode.Expr.resolve?_of_resolve resolved) args called
      rw [← split] at yields
      exact yields
  | none =>
      obtain ⟨bracket, bracketParsed, read⟩ := bind_eq_ok_iff.mp read
      cases bracket with
      | some opening =>
          obtain ⟨load, loadParsed, read⟩ := bind_eq_ok_iff.mp read
          cases read
          obtain ⟨split, opens⟩ := Token.eq_cons_of_accept bracketParsed
          obtain ⟨index, close, inner, closes, loaded⟩ :=
            indexRead opening load loadParsed
          have yields := OperandYields.index identifier opens inner closes
          rw [← split, ← loaded] at yields
          exact yields
      | none =>
          cases read
          exact .word identifier

theorem operandRead_other
    {token : Token} {rest : List Token}
    (notParenthesis : token.kind = .lparen → False)
    (notNumber : token.kind = .number → False)
    (notIdentifier : token.kind = .identifier → False) :
    OperandRead context (token :: rest) := by
  intro parsed read
  rw [parseOperand] at read
  split at read
  · next opens => exact (notParenthesis opens).elim
  · next number => exact (notNumber number).elim
  · next identifier => exact (notIdentifier identifier).elim
  · cases read

theorem indexRead_step
    {cell : String} {tokens : List Token}
    (innerRead : LevelsRead context Level.table tokens) :
    IndexRead context cell tokens := by
  intro parsed read
  rw [parseIndex] at read
  obtain ⟨index, indexParsed, read⟩ := bind_eq_ok_iff.mp read
  obtain ⟨close, closeParsed, read⟩ := bind_eq_ok_iff.mp read
  cases read
  obtain ⟨split, closes⟩ := Token.eq_cons_of_expect closeParsed
  obtain ⟨yields, _⟩ := innerRead (List.suffix_refl _) index indexParsed
  rw [split] at yields
  exact ⟨index.value, close.value, yields, closes, rfl⟩

theorem callRead_step
    {callable : Callable} {tokens : List Token}
    (argumentsRead : ArgumentsRead context tokens) :
    CallRead context callable tokens := by
  intro parsed read
  rw [parseCall] at read
  obtain ⟨parenthesis, parenthesisParsed, read⟩ := bind_eq_ok_iff.mp read
  cases parenthesis with
  | some close =>
      obtain ⟨call, finished, read⟩ := bind_eq_ok_iff.mp read
      cases read
      obtain ⟨split, closes⟩ := Token.eq_cons_of_accept parenthesisParsed
      exact
        ⟨[], ⟨close.value, closes, Or.inl ⟨rfl, split⟩⟩,
          FlatCode.Expr.call?_of_finishCall finished⟩
  | none =>
      obtain ⟨args, argsParsed, read⟩ := bind_eq_ok_iff.mp read
      obtain ⟨close, closeParsed, read⟩ := bind_eq_ok_iff.mp read
      obtain ⟨call, finished, read⟩ := bind_eq_ok_iff.mp read
      cases read
      obtain ⟨split, closes⟩ := Token.eq_cons_of_expect closeParsed
      obtain ⟨values, yields, normalized⟩ := argumentsRead args argsParsed
      rw [split] at yields
      rw [normalized] at finished
      exact
        ⟨values, ⟨close.value, closes, Or.inr yields⟩,
          FlatCode.Expr.call?_of_finishCall finished⟩

theorem argumentsRead_step
    {tokens : List Token}
    (firstRead : LevelsRead context Level.table tokens)
    (othersRead :
      ∀ (first : Parsed FlatCode.Expr tokens.length)
        (comma : Parsed Token first.rest.length),
        ArgumentsRead context comma.rest) :
    ArgumentsRead context tokens := by
  intro parsed read
  rw [parseArguments] at read
  obtain ⟨first, firstParsed, read⟩ := bind_eq_ok_iff.mp read
  obtain ⟨separator, separatorParsed, read⟩ := bind_eq_ok_iff.mp read
  obtain ⟨yields, _⟩ := firstRead (List.suffix_refl _) first firstParsed
  cases separator with
  | none =>
      cases read
      exact ⟨[first.value], .last yields, rfl⟩
  | some comma =>
      obtain ⟨others, othersParsed, read⟩ := bind_eq_ok_iff.mp read
      cases read
      obtain ⟨split, separates⟩ := Token.eq_cons_of_accept separatorParsed
      obtain ⟨values, othersYield, normalized⟩ :=
        othersRead first comma others othersParsed
      rw [split] at yields
      refine ⟨first.value :: values, .more separates yields othersYield, ?_⟩
      exact congrArg (first.value.normalize :: ·) normalized

/-- The tokens of an expression that is read derive from the grammar, up to a token
that is no binary operator. -/
theorem yields_of_parse
    {tokens : List Token} {parsed : Parsed FlatCode.Expr tokens.length}
    (read : FlatCode.Expr.parse context tokens = .ok parsed) :
    LevelYields context.functions Level.table parsed.value tokens parsed.rest ∧
      nextKind parsed.rest ∉ binaryLevels.flatten := by
  have readers :=
    FlatCode.Expr.parseLevels.mutual_induct
      (LevelsRead context) (OperatorsRead context) (OperandRead context)
      (IndexRead context) (CallRead context) (ArgumentsRead context)
      (fun _ => levelsRead_nil)
      (fun _ _ _ => levelsRead_cons)
      (fun _ _ _ => operatorsRead_nil)
      (fun _ _ _ _ _ => operatorsRead_stop)
      (fun _ _ _ _ _ _ => operatorsRead_cons)
      operandRead_nil
      (fun _ _ => operandRead_parenthesis)
      (fun _ _ => operandRead_number)
      (fun _ _ => operandRead_identifier)
      (fun _ _ => operandRead_other)
      (fun _ _ => indexRead_step)
      (fun _ _ => callRead_step)
      (fun _ => argumentsRead_step)
  exact readers.1 Level.table tokens (List.suffix_refl _) parsed read

end FlatCode.Surface
