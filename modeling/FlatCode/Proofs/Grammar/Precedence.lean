import FlatCode.Proofs.Grammar.CompleteProgram
import FlatCode.Proofs.Grammar.SoundExpr
import FlatCode.Proofs.Lockstep.Layout

/-!
# Precedence and associativity

A formula is an expression tree without parentheses: what groups what is told by the
tree alone.  To write it down, parentheses are put

* around a left operand that binds less than the operator behind it;
* around a right operand that binds no tighter than the operator before it;
* around the operand of a run of unary operators that is an operation or a run.

What is written is read back as the value of the formula, which is put together from
its leaves upwards.  More parentheses can stand around any part, and they change
nothing.
-/

namespace FlatCode

open Token (Kind tokenize)
open Surface (LevelYields OperandYields ArgumentsYield SignsDerive extendRun)

/-! ## Formulas -/

/-- A binary operator with its sign and its precedence. -/
structure BinarySign where
  precedence : Fin Level.table.length
  sign : Kind
  operator : Operator
  listed : (sign, operator) ∈ (Level.table.get precedence).operators

def BinarySign.level (sign : BinarySign) : Level :=
  Level.table.get sign.precedence

abbrev UnarySign := { sign : Kind // sign ∈ Surface.unarySigns }

/-- A builtin function with the number of its arguments. -/
structure Builtin (arity : Nat) where
  name : String
  callable : Callable
  listed : (name, callable) ∈ Callable.builtins
  fits : callable.arity = arity

def Builtin.call
    {arity : Nat} (builtin : Builtin arity) (args : List Expr)
    (number : args.length = arity) : Expr :=
  (builtin.callable.call? args).get
    ((Callable.call?_isSome_iff builtin.callable args).mpr
      (number.trans builtin.fits.symm))

/-- An expression tree in which nothing is in parentheses. -/
inductive Formula where
  | number (text : String)
  | word (name : String)
  | load (cell : String) (index : Formula)
  | callOne (builtin : Builtin 1) (argument : Formula)
  | callTwo (builtin : Builtin 2) (first second : Formula)
  /-- An operand behind one or more unary operators. -/
  | signed (sign : UnarySign) (others : List UnarySign) (operand : Formula)
  | binary (sign : BinarySign) (lhs rhs : Formula)

namespace Formula

def value : Formula → Expr
  | .number text => .ofText text
  | .word name => .ofText name
  | .load cell index => .ofLoad cell index.value.normalize
  | .callOne builtin argument => builtin.call [argument.value.normalize] rfl
  | .callTwo builtin first second =>
      builtin.call [first.value.normalize, second.value.normalize] rfl
  | .signed sign others operand =>
      Unary.applyAll
        (((sign :: others).map Subtype.val).foldl extendRun []) operand.value
  | .binary sign lhs rhs =>
      sign.level.combine sign.operator lhs.value rhs.value

/-- How tightly a formula holds together: an operation as its operator does, a run of
unary operators more than any operation, and everything else more than that. -/
def binding : Formula → Nat
  | .binary sign _ _ => sign.precedence
  | .signed .. => Level.table.length
  | _ => Level.table.length + 1

/-! ## Writing formulas -/

/-- Tokens apart from where they stand. -/
abbrev Shapes := List (Kind × Option String)

def between (opening : Kind) (inner : Shapes) (close : Kind) : Shapes :=
  (opening, none) :: (inner ++ [(close, none)])

def wrap (enclose : Bool) (inner : Shapes) : Shapes :=
  if enclose then between .lparen inner .rparen else inner

/-- The shapes of the tokens of a formula, with no more parentheses than needed. -/
def write : Formula → Shapes
  | .number text => [(.number, some text)]
  | .word name => [(.identifier, some name)]
  | .load cell index =>
      (.identifier, some cell) :: between .lbracket index.write .rbracket
  | .callOne builtin argument =>
      (.identifier, some builtin.name) ::
        between .lparen argument.write .rparen
  | .callTwo builtin first second =>
      (.identifier, some builtin.name) ::
        between .lparen (first.write ++ (.comma, none) :: second.write) .rparen
  | .signed sign others operand =>
      (sign :: others).map (fun sign => (sign.val, none)) ++
        wrap (operand.binding ≤ Level.table.length) operand.write
  | .binary sign lhs rhs =>
      wrap (lhs.binding < sign.precedence) lhs.write ++
        (sign.sign, none) ::
          wrap (rhs.binding ≤ sign.precedence) rhs.write

/-- The shapes of the tokens of a formula where at least the given binding is asked
for.  Parentheses can stand anywhere, and they stand where the binding is less. -/
inductive Writing : Nat → Formula → Shapes → Prop
  | number (least : Nat) (text : String) :
      Writing least (.number text) [(.number, some text)]
  | word (least : Nat) (name : String) :
      Writing least (.word name) [(.identifier, some name)]
  | load (least : Nat) (cell : String) {index : Formula} {inner : Shapes}
      (written : Writing 0 index inner) :
      Writing least (.load cell index)
        ((.identifier, some cell) :: between .lbracket inner .rbracket)
  | callOne (least : Nat) (builtin : Builtin 1) {argument : Formula}
      {inner : Shapes} (written : Writing 0 argument inner) :
      Writing least (.callOne builtin argument)
        ((.identifier, some builtin.name) :: between .lparen inner .rparen)
  | callTwo (least : Nat) (builtin : Builtin 2) {first second : Formula}
      {left right : Shapes} (firstWritten : Writing 0 first left)
      (secondWritten : Writing 0 second right) :
      Writing least (.callTwo builtin first second)
        ((.identifier, some builtin.name) ::
          between .lparen (left ++ (.comma, none) :: right) .rparen)
  | signed {least : Nat} (loose : least ≤ Level.table.length)
      (sign : UnarySign) (others : List UnarySign) {operand : Formula}
      {inner : Shapes}
      (written : Writing (Level.table.length + 1) operand inner) :
      Writing least (.signed sign others operand)
        ((sign :: others).map (fun sign => (sign.val, none)) ++ inner)
  | binary {least : Nat} (sign : BinarySign)
      (loose : least ≤ sign.precedence.val) {lhs rhs : Formula}
      {left right : Shapes} (lhsWritten : Writing sign.precedence lhs left)
      (rhsWritten : Writing (sign.precedence + 1) rhs right) :
      Writing least (.binary sign lhs rhs)
        (left ++ (sign.sign, none) :: right)
  | parentheses (least : Nat) {formula : Formula} {inner : Shapes}
      (written : Writing 0 formula inner) :
      Writing least formula (between .lparen inner .rparen)

theorem writing_wrap
    {formula : Formula}
    (bare : ∀ least ≤ formula.binding, Writing least formula formula.write)
    (least : Nat) :
    Writing least formula (wrap (formula.binding < least) formula.write) := by
  by_cases loose : formula.binding < least
  · rw [decide_eq_true loose]
    exact .parentheses least (bare 0 (Nat.zero_le _))
  · rw [decide_eq_false loose]
    exact bare least (Nat.le_of_not_lt loose)

/-- A formula is written with parentheses where they are needed. -/
theorem writing_write
    (formula : Formula) {least : Nat} (enough : least ≤ formula.binding) :
    Writing least formula formula.write := by
  induction formula generalizing least with
  | number text =>
      exact .number least text
  | word name =>
      exact .word least name
  | load cell index indexHypothesis =>
      exact .load least cell (indexHypothesis (Nat.zero_le _))
  | callOne builtin argument argumentHypothesis =>
      exact .callOne least builtin (argumentHypothesis (Nat.zero_le _))
  | callTwo builtin first second firstHypothesis secondHypothesis =>
      exact
        .callTwo least builtin (firstHypothesis (Nat.zero_le _))
          (secondHypothesis (Nat.zero_le _))
  | signed sign others operand operandHypothesis =>
      have written :=
        writing_wrap (fun _ => operandHypothesis) (Level.table.length + 1)
      simp only [Nat.lt_succ_iff] at written
      exact .signed enough sign others written
  | binary sign lhs rhs lhsHypothesis rhsHypothesis =>
      have written :=
        writing_wrap (fun _ => rhsHypothesis) (sign.precedence.val + 1)
      simp only [Nat.lt_succ_iff] at written
      exact .binary sign enough (writing_wrap (fun _ => lhsHypothesis) _) written

/-! ## Reading what is written -/

/-- The tokens start with an expression that binds at least as given, and it is built
into `value`. -/
def YieldsAt
    (least : Nat) (value : Expr) (before after : List Token) : Prop :=
  if least ≤ Level.table.length then
    LevelYields [] (Level.table.drop least) value before after
  else
    OperandYields [] value before after

theorem yieldsAt_of_levels
    {least tight : Nat} {value : Expr} {before after : List Token}
    (loose : least ≤ tight) (inTable : tight ≤ Level.table.length)
    (yields : LevelYields [] (Level.table.drop tight) value before after) :
    YieldsAt least value before after := by
  rw [YieldsAt, if_pos (Nat.le_trans loose inTable)]
  induction loose with
  | refl =>
      exact yields
  | step _ inductionHypothesis =>
      apply inductionHypothesis (Nat.le_of_succ_le inTable)
      rw [List.drop_eq_getElem_cons inTable]
      exact yields.tighter _

theorem yieldsAt_of_operand
    (least : Nat) {value : Expr} {before after : List Token}
    (yields : OperandYields [] value before after) :
    YieldsAt least value before after := by
  by_cases inTable : least ≤ Level.table.length
  · refine yieldsAt_of_levels inTable (Nat.le_refl _) ?_
    exact LevelYields.signed (.nil before) yields
  · rwa [YieldsAt, if_neg inTable]

theorem YieldsAt.levels
    {value : Expr} {before after : List Token}
    (yields : YieldsAt 0 value before after) :
    LevelYields [] Level.table value before after :=
  yields

theorem operator?_of_listed :
    ∀ level ∈ Level.table, ∀ entry ∈ level.operators,
      level.operator? entry.1 = some entry.2 := by
  decide

theorem resolve?_of_listed :
    ∀ entry ∈ Callable.builtins,
      Callable.resolve? [] entry.1 = some entry.2 := by
  decide

/-- Tokens whose shapes stand between an opening and a closing one. -/
theorem exists_between
    {opening close : Kind} {inner : Shapes} {tokens : List Token}
    (spelled : tokens.map Token.shape = between opening inner close) :
    ∃ first middle last,
      tokens = first :: (middle ++ [last]) ∧ first.kind = opening ∧
        middle.map Token.shape = inner ∧ last.kind = close := by
  obtain ⟨first, rest, rfl, firstShape, restShapes⟩ := List.map_eq_cons_iff.mp spelled
  obtain ⟨middle, behind, rfl, middleShapes, behindShapes⟩ :=
    List.map_eq_append_iff.mp restShapes
  obtain ⟨last, none, rfl, lastShape, noneShapes⟩ :=
    List.map_eq_cons_iff.mp behindShapes
  obtain rfl := List.map_eq_nil_iff.mp noneShapes
  exact
    ⟨first, middle, last, rfl, (Prod.mk.inj firstShape).1, middleShapes,
      (Prod.mk.inj lastShape).1⟩

/-- Tokens whose shapes start with a text. -/
theorem exists_cons_of_text
    {kind : Kind} {text : String} {later : Shapes} {tokens : List Token}
    (spelled : tokens.map Token.shape = (kind, some text) :: later) :
    ∃ first rest,
      tokens = first :: rest ∧ first.kind = kind ∧ first.payload = text ∧
        rest.map Token.shape = later := by
  obtain ⟨first, rest, rfl, shape, restShapes⟩ := List.map_eq_cons_iff.mp spelled
  obtain ⟨kind, written⟩ := Prod.mk.inj shape
  refine ⟨first, rest, rfl, kind, ?_, restShapes⟩
  rw [Token.payload, written]
  rfl

/-- Tokens whose shapes are those of a name and something in brackets. -/
theorem exists_bracketed
    {text : String} {opening close : Kind} {inner : Shapes} {tokens : List Token}
    (spelled :
      tokens.map Token.shape =
        (.identifier, some text) :: between opening inner close) :
    ∃ name first middle last,
      tokens = name :: first :: (middle ++ [last]) ∧ name.kind = .identifier ∧
        name.payload = text ∧ first.kind = opening ∧
        middle.map Token.shape = inner ∧ last.kind = close := by
  obtain ⟨name, rest, rfl, isWord, named, restShapes⟩ := exists_cons_of_text spelled
  obtain ⟨first, middle, last, rfl, opens, middleShapes, closes⟩ :=
    exists_between restShapes
  exact
    ⟨name, first, middle, last, rfl, isWord, named, opens, middleShapes, closes⟩

/-- Tokens whose shapes are split by a sign. -/
theorem exists_split_of_sign
    {left right : Shapes} {sign : Kind} {tokens : List Token}
    (spelled : tokens.map Token.shape = left ++ (sign, none) :: right) :
    ∃ front token back,
      tokens = front ++ token :: back ∧ front.map Token.shape = left ∧
        token.kind = sign ∧ back.map Token.shape = right := by
  obtain ⟨front, behind, rfl, frontShapes, behindShapes⟩ :=
    List.map_eq_append_iff.mp spelled
  obtain ⟨token, back, rfl, shape, backShapes⟩ :=
    List.map_eq_cons_iff.mp behindShapes
  exact ⟨front, token, back, rfl, frontShapes, (Prod.mk.inj shape).1, backShapes⟩

/-- A call of a builtin with its arguments between parentheses. -/
theorem operandYields_call
    {arity : Nat} (builtin : Builtin arity) {values : List Expr}
    (number : (values.map Expr.normalize).length = arity)
    {name opening close : Token} {rest after : List Token}
    (identifier : name.kind = .identifier) (named : name.payload = builtin.name)
    (opens : opening.kind = .lparen) (closes : close.kind = .rparen)
    (args : ArgumentsYield [] values rest (close :: after)) :
    OperandYields [] (builtin.call (values.map Expr.normalize) number)
      (name :: opening :: rest) after := by
  refine
    .call identifier opens ?_ ⟨close, closes, Or.inr args⟩
      (Option.some_get _).symm
  rw [named]
  exact resolve?_of_listed _ builtin.listed

theorem signsDerive_of_shapes
    (signs : List UnarySign) {tokens : List Token}
    (shapes : tokens.map Token.shape = signs.map fun sign => (sign.val, none))
    (after : List Token) :
    SignsDerive (signs.map Subtype.val) (tokens ++ after) after := by
  induction signs generalizing tokens with
  | nil =>
      obtain rfl := List.map_eq_nil_iff.mp shapes
      exact .nil after
  | cons sign others inductionHypothesis =>
      obtain ⟨token, rest, rfl, shape, restShapes⟩ := List.map_eq_cons_iff.mp shapes
      have kind : token.kind = sign.val := (Prod.mk.inj shape).1
      rw [List.map_cons, ← kind]
      exact .cons (kind ▸ sign.property) (inductionHypothesis restShapes)

/-- However a formula is written, it is derived with its value. -/
theorem yieldsAt_of_writing
    {least : Nat} {formula : Formula} {shapes : Shapes}
    (written : Writing least formula shapes)
    {tokens : List Token} (spelled : tokens.map Token.shape = shapes)
    (after : List Token) :
    YieldsAt least formula.value (tokens ++ after) after := by
  induction written generalizing tokens after with
  | number least text =>
      obtain ⟨token, rest, rfl, isNumber, rfl, restShapes⟩ :=
        exists_cons_of_text spelled
      obtain rfl := List.map_eq_nil_iff.mp restShapes
      exact yieldsAt_of_operand least (.number isNumber)
  | word least name =>
      obtain ⟨token, rest, rfl, isWord, rfl, restShapes⟩ :=
        exists_cons_of_text spelled
      obtain rfl := List.map_eq_nil_iff.mp restShapes
      exact yieldsAt_of_operand least (.word isWord)
  | load least cell _ inductionHypothesis =>
      obtain ⟨name, opening, inner, close, rfl, isWord, rfl, opens, innerShapes,
        closes⟩ := exists_bracketed spelled
      have yields := (inductionHypothesis innerShapes (close :: after)).levels
      rw [List.append_cons] at yields
      exact yieldsAt_of_operand least (.index isWord opens yields closes)
  | callOne least builtin _ inductionHypothesis =>
      obtain ⟨name, opening, inner, close, rfl, isWord, named, opens, innerShapes,
        closes⟩ := exists_bracketed spelled
      have yields := (inductionHypothesis innerShapes (close :: after)).levels
      rw [List.append_cons] at yields
      exact
        yieldsAt_of_operand least
          (operandYields_call builtin rfl isWord named opens closes (.last yields))
  | callTwo least builtin _ _ firstHypothesis secondHypothesis =>
      obtain ⟨name, opening, inner, close, rfl, isWord, named, opens, innerShapes,
        closes⟩ := exists_bracketed spelled
      obtain ⟨first, comma, second, rfl, firstShapes, separates, secondShapes⟩ :=
        exists_split_of_sign innerShapes
      have args :=
        ArgumentsYield.more separates
          (firstHypothesis firstShapes _).levels
          (.last (secondHypothesis secondShapes (close :: after)).levels)
      have joined :
          first ++ comma :: (second ++ close :: after) =
            first ++ comma :: second ++ [close] ++ after := by
        simp
      rw [joined] at args
      exact
        yieldsAt_of_operand least
          (operandYields_call builtin rfl isWord named opens closes args)
  | signed loose sign others _ inductionHypothesis =>
      obtain ⟨signs, rest, rfl, signShapes, restShapes⟩ :=
        List.map_eq_append_iff.mp spelled
      have yields := inductionHypothesis restShapes after
      rw [YieldsAt, if_neg (Nat.not_succ_le_self _)] at yields
      refine yieldsAt_of_levels loose (Nat.le_refl _) ?_
      rw [List.append_assoc]
      exact
        LevelYields.signed (signsDerive_of_shapes (sign :: others) signShapes _)
          yields
  | binary sign loose _ _ lhsHypothesis rhsHypothesis =>
      obtain ⟨front, token, back, rfl, frontShapes, isSign, backShapes⟩ :=
        exists_split_of_sign spelled
      have left := lhsHypothesis frontShapes (token :: (back ++ after))
      have right := rhsHypothesis backShapes after
      have inTable := sign.precedence.isLt
      rw [YieldsAt, if_pos (Nat.le_of_lt inTable),
        List.drop_eq_getElem_cons inTable] at left
      rw [YieldsAt, if_pos (Nat.succ_le_of_lt inTable)] at right
      refine yieldsAt_of_levels loose (Nat.le_of_lt inTable) ?_
      rw [List.append_assoc, List.cons_append, List.drop_eq_getElem_cons inTable]
      refine LevelYields.binary ?_ ?_ left right
      · rw [← List.drop_eq_getElem_cons inTable]
        exact List.drop_suffix _ _
      · rw [isSign]
        exact operator?_of_listed _ (List.getElem_mem _) _ sign.listed
  | parentheses least _ inductionHypothesis =>
      obtain ⟨opening, inner, close, rfl, opens, innerShapes, closes⟩ :=
        exists_between spelled
      have yields := (inductionHypothesis innerShapes (close :: after)).levels
      rw [List.append_cons] at yields
      exact yieldsAt_of_operand least (.group opens yields closes)

/-! ## Assignments -/

/-- The program that assigns the value of a formula to a variable. -/
def assignment (target : String) (formula : Formula) : Program :=
  ⟨[], [.assign target formula.value.normalize], .empty⟩

theorem ofStream_of_writing
    {formula : Formula} {shapes : Shapes} (written : Writing 0 formula shapes)
    {target : String} {tokens : List Token}
    (spelled :
      tokens.map Token.shape =
        (.identifier, some target) :: (.assign, none) :: shapes)
    {last : Token} (isLast : last.kind = .eof) :
    Program.ofStream ⟨tokens, .ok last⟩ = .ok (formula.assignment target) := by
  obtain ⟨name, rest, rfl, isWord, rfl, restShapes⟩ := exists_cons_of_text spelled
  obtain ⟨sign, value, rfl, signShape, valueShapes⟩ :=
    List.map_eq_cons_iff.mp restShapes
  obtain ⟨tree, derived, builds⟩ := (yieldsAt_of_writing written valueShapes []).levels
  rw [List.append_nil] at derived
  have stmtDerived :
      Surface.StmtDerives (.assign name.payload tree) (name :: sign :: value) [] :=
    .assign isWord (Prod.mk.inj signShape).1 ⟨derived, by decide⟩
      (.absent (by decide))
  have programDerived :
      Surface.Program.Derives ⟨[], [.assign name.payload tree]⟩
        (name :: sign :: value ++ [last]) :=
    ⟨_, last, _, rfl, isLast, .nil _, .cons stmtDerived (.nil [])⟩
  refine Surface.ofStream_of_derives rfl isLast programDerived ?_
  rw [Surface.Program.build, Surface.Function.buildAll]
  simp only [Option.bind_eq_bind, Option.bind_some, List.map_nil,
    Surface.Stmt.buildAll, Surface.Stmt.build, builds]
  rfl

/-- However a formula is written behind an assignment sign, with the parentheses that
are needed or with more of them, its value is assigned. -/
theorem written_formula_is_read_as_its_value (formula : Formula) :
    Writing 0 formula formula.write ∧
      ∀ shapes, Writing 0 formula shapes → ∀ target : String,
        (∀ (tokens : List Token) (last : Token), last.kind = .eof →
          tokens.map Token.shape =
              (.identifier, some target) :: (.assign, none) :: shapes →
            Program.ofStream ⟨tokens, .ok last⟩ =
              .ok (formula.assignment target)) ∧
        ∀ (source : String) (sequence : List Token),
          tokenize source = .ok sequence →
            sequence.map Token.shape =
                (.identifier, some target) :: (.assign, none) ::
                  (shapes ++ [(.eof, none)]) →
              Program.parse source = .ok (formula.assignment target) := by
  refine ⟨formula.writing_write (Nat.zero_le _), fun shapes written target => ?_⟩
  refine ⟨fun tokens last isLast spelled => ?_, fun source sequence lexed spelled => ?_⟩
  · exact ofStream_of_writing written spelled isLast
  · obtain ⟨last, ended, rfl⟩ := Token.exists_ending_of_tokenize lexed
    rw [List.map_append, ← List.cons_append, ← List.cons_append] at spelled
    obtain ⟨front, single⟩ := List.append_inj' spelled rfl
    obtain ⟨isLast, _⟩ := Prod.mk.inj (List.head_eq_of_cons_eq single)
    have read := ofStream_of_writing written front isLast
    rwa [← ended] at read

/-- The formula `a - (b - c) * -d`. -/
def nestedDifference : Formula :=
  .binary ⟨⟨8, by decide⟩, .minus, .sub, by decide⟩ (.word "a")
    (.binary ⟨⟨9, by decide⟩, .star, .mul, by decide⟩
      (.binary ⟨⟨8, by decide⟩, .minus, .sub, by decide⟩ (.word "b") (.word "c"))
      (.signed ⟨.minus, by decide⟩ [] (.word "d")))

/-- The same formula as `(a - ((b - (c)) * -d))`. -/
def enclosedDifference : Shapes :=
  between .lparen
    ((.identifier, some "a") :: (.minus, none) ::
      between .lparen
        (between .lparen
          ((.identifier, some "b") :: (.minus, none) ::
            between .lparen [(.identifier, some "c")] .rparen)
          .rparen ++
          [(.star, none), (.minus, none), (.identifier, some "d")])
        .rparen)
    .rparen

theorem writing_enclosedDifference :
    Writing 0 nestedDifference enclosedDifference :=
  .parentheses 0
    (.binary _ (by decide) (.word _ "a")
      (.parentheses _
        (.binary _ (by decide)
          (.parentheses _
            (.binary _ (by decide) (.word _ "b") (.parentheses _ (.word 0 "c"))))
          (.signed (by decide) _ [] (.word _ "d")))))

/-- One formula with the parentheses that are needed and with some more. -/
theorem written_formula_is_read_as_its_value_of_difference :
    Program.parse "x = a - (b - c) * -d" =
        .ok (nestedDifference.assignment "x") ∧
      Program.parse "x = (a - ((b - (c)) * -d))" =
        .ok (nestedDifference.assignment "x") := by
  obtain ⟨least, read⟩ := written_formula_is_read_as_its_value nestedDifference
  constructor
  · obtain ⟨sequence, lexed, spelled⟩ :=
      exists_ok_of_any
        (show ((tokenize "x = a - (b - c) * -d").toOption.any fun sequence =>
            decide
              (sequence.map Token.shape =
                (.identifier, some "x") :: (.assign, none) ::
                  (nestedDifference.write ++ [(.eof, none)]))) = true by
          decide +kernel)
    exact (read _ least "x").2 _ sequence lexed (of_decide_eq_true spelled)
  · obtain ⟨sequence, lexed, spelled⟩ :=
      exists_ok_of_any
        (show ((tokenize "x = (a - ((b - (c)) * -d))").toOption.any fun sequence =>
            decide
              (sequence.map Token.shape =
                (.identifier, some "x") :: (.assign, none) ::
                  (enclosedDifference ++ [(.eof, none)]))) = true by
          decide +kernel)
    exact
      (read _ writing_enclosedDifference "x").2 _ sequence lexed
        (of_decide_eq_true spelled)

end Formula

end FlatCode
