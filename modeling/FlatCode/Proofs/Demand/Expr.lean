import FlatCode.Expr.Parser
import FlatCode.Proofs.Demand.Reader

/-!
# Expressions read on demand

The readers of this module take the tokens of an expression from a source.  Each
loop has a reader for one turn of it.  A turn that finds nothing to take says so,
and the loop is left.

Fuel in proportion to the number of tokens is enough: by the induction of the readers
of token lists, each reader here ends and gives what its partner there gives.  Between
two tokens that are taken the calls go down the eleven levels of the table once.
-/

namespace FlatCode.Demand

open Token (Ending Kind Parsed)

/-! ## The readers -/

/-- Take one more unary operator, if there is one. -/
def signTurn (run : List Unary) : Reader (Option (List Unary)) := do
  match Unary.extend? run (← peek) with
  | none => return none
  | some longer =>
      let _ ← read
      return some longer

def signs : Nat → List Unary → Reader (List Unary)
  | 0, _ => exhausted
  | fuel + 1, run => do
      match ← signTurn run with
      | none => return run
      | some longer => signs fuel longer

def resolve (functions : List Callee) (name : Token) :
    Except Diagnostic Callable :=
  match Callable.resolve? functions name.payload with
  | some callable => .ok callable
  | none => .error ((Fault.unknownFunction name.payload).reportAt name.position)

mutual

/-- Read an expression of the level at the given depth of the table; behind the
table come the unary operators. -/
def binary (functions : List Callee) : Nat → Nat → Reader Expr
  | 0, _ => exhausted
  | fuel + 1, depth =>
      match Level.table[depth]? with
      | none => unary functions fuel
      | some level => do
          let first ← binary functions fuel (depth + 1)
          operators functions fuel level (depth + 1) first

def operatorTurn (functions : List Callee) :
    Nat → Level → Nat → Expr → Reader (Option Expr)
  | 0, _, _, _ => exhausted
  | fuel + 1, level, tighter, lhs => do
      match level.operator? (← peek) with
      | none => return none
      | some operator =>
          let _ ← read
          let rhs ← binary functions fuel tighter
          return some (level.combine operator lhs rhs)

def operators (functions : List Callee) :
    Nat → Level → Nat → Expr → Reader Expr
  | 0, _, _, _ => exhausted
  | fuel + 1, level, tighter, lhs => do
      match ← operatorTurn functions fuel level tighter lhs with
      | none => return lhs
      | some longer => operators functions fuel level tighter longer

def unary (functions : List Callee) : Nat → Reader Expr
  | 0 => exhausted
  | fuel + 1 => do
      let run ← signs fuel []
      let operand ← primary functions fuel
      return Unary.applyAll run operand

def primary (functions : List Callee) : Nat → Reader Expr
  | 0 => exhausted
  | fuel + 1 => do
      let token ← read
      match token.kind with
      | .lparen =>
          let inner ← binary functions fuel 0
          let _ ← expect .rparen
          return inner
      | .number => return .ofText token.payload
      | .identifier =>
          let kind ← peek
          if kind = .lparen then
            call functions fuel token
          else if kind = .lbracket then
            let _ ← read
            index functions fuel token.payload
          else
            return .ofText token.payload
      | _ => throw (Fault.invalidExpression.reportAt token.position)

def index (functions : List Callee) : Nat → String → Reader Expr
  | 0, _ => exhausted
  | fuel + 1, cell => do
      let index ← binary functions fuel 0
      let _ ← expect .rbracket
      return .ofLoad cell index.normalize

def call (functions : List Callee) : Nat → Token → Reader Expr
  | 0, _ => exhausted
  | fuel + 1, name => do
      let callable ← liftExcept (resolve functions name)
      let _ ← expect .lparen
      callWith functions fuel callable

def callWith (functions : List Callee) : Nat → Callable → Reader Expr
  | 0, _ => exhausted
  | fuel + 1, callable => do
      let args ← argumentList functions fuel
      let close ← expect .rparen
      liftExcept (Expr.finishCall callable args close)

def argumentList (functions : List Callee) : Nat → Reader (List Expr)
  | 0 => exhausted
  | fuel + 1 => do
      if (← peek) = .rparen then
        return []
      else
        arguments functions fuel

/-- Read one argument, and tell whether a comma was taken behind it. -/
def argumentTurn (functions : List Callee) : Nat → Reader (Expr × Bool)
  | 0 => exhausted
  | fuel + 1 => do
      let argument ← binary functions fuel 0
      let more ← accept .comma
      return (argument.normalize, more)

def arguments (functions : List Callee) : Nat → Reader (List Expr)
  | 0 => exhausted
  | fuel + 1 => do
      let turn ← argumentTurn functions fuel
      if turn.2 then
        let others ← arguments functions fuel
        return turn.1 :: others
      else
        return [turn.1]

end

def expression (functions : List Callee) (fuel : Nat) : Reader Expr :=
  binary functions fuel 0

section Following

attribute [local simp] signs binary operatorTurn operators unary primary index call
  callWith argumentList argumentTurn arguments

variable {ending : Ending} {functions : List Callee}

/-! ## The end of the input is no operator -/

theorem ne_eof_of_extend?
    {run longer : List Unary} {kind : Kind}
    (extended : Unary.extend? run kind = some longer) :
    kind ≠ .eof := by
  rintro rfl
  cases extended

theorem operator?_eof : ∀ level ∈ Level.table, level.operator? .eof = none := by
  decide

theorem ne_eof_of_operator?
    {level : Level} {kind : Kind} {operator : Operator}
    (listed : level ∈ Level.table)
    (own : level.operator? kind = some operator) :
    kind ≠ .eof := by
  rintro rfl
  rw [operator?_eof level listed] at own
  cases own

/-- The level that stands first at a depth of the table. -/
theorem table_of_drop
    {level : Level} {tighter : List Level} {depth : Nat}
    (stands : level :: tighter = Level.table.drop depth) :
    Level.table[depth]? = some level ∧ level ∈ Level.table ∧
      tighter = Level.table.drop (depth + 1) := by
  have found : Level.table[depth]? = some level := by
    rw [← List.head?_drop, ← stands]
    rfl
  refine ⟨found, List.mem_of_getElem? found, ?_⟩
  rw [← List.tail_drop, ← stands]
  rfl

theorem table_of_drop_nil {depth : Nat} (stands : [] = Level.table.drop depth) :
    Level.table[depth]? = none := by
  rw [← List.head?_drop, ← stands]
  rfl

/-! ## Unary operators -/

theorem ends_signs
    (run : List Unary) (tokens : List Token) {fuel : Nat}
    (enough : tokens.length < fuel) :
    Ends ending tokens (signs fuel run)
      (fun longer rest =>
        longer = (Unary.readRun run tokens).value ∧
          rest = (Unary.readRun run tokens).rest)
      (fun report =>
        ending = .error report ∧ (Unary.readRun run tokens).rest = []) := by
  induction tokens generalizing run fuel with
  | nil =>
      obtain _ | fuel := fuel
      · cases enough
      rw [signs, signTurn, bind_assoc]
      refine Ends.look ?_ ?_
      · intro last _ atEnd
        rw [atEnd rfl]
        exact Ends.give ⟨rfl, rfl⟩
      · intro report passed
        exact ⟨passed, rfl⟩
  | cons token rest inductionHypothesis =>
      obtain _ | fuel := fuel
      · cases enough
      rw [signs, signTurn, bind_assoc, Unary.readRun]
      refine Ends.look_front ?_
      cases step : Unary.extend? run token.kind with
      | none =>
          exact Ends.give ⟨rfl, rfl⟩
      | some longer =>
          rw [bind_assoc]
          refine Ends.take (ne_eof_of_extend? step) ?_
          exact inductionHypothesis longer (Nat.lt_of_succ_lt_succ enough)

/-! ## One statement for each reader -/

variable (ending functions)

/-- Expressions of the level at a depth are read as from the token list. -/
def LevelsFollow (levels : List Level) (tokens : List Token) : Prop :=
  ∀ depth fuel, levels = Level.table.drop depth →
    32 * tokens.length + levels.length + 2 < fuel →
      Follows ending tokens (binary functions fuel depth)
        (Expr.parseLevels ⟨ending, functions⟩ levels tokens)

def OperatorsFollow
    (level : Level) (tighter : List Level) (lhs : Expr)
    (tokens : List Token) : Prop :=
  ∀ depth fuel, level :: tighter = Level.table.drop depth →
    32 * tokens.length + tighter.length + 1 < fuel →
      Follows ending tokens (operators functions fuel level (depth + 1) lhs)
        (Expr.parseOperators ⟨ending, functions⟩ level tighter lhs tokens)

def OperandFollows (tokens : List Token) : Prop :=
  ∀ fuel, 32 * tokens.length < fuel →
    Follows ending tokens (primary functions fuel)
      (Expr.parseOperand ⟨ending, functions⟩ tokens)

def IndexFollows (cell : String) (tokens : List Token) : Prop :=
  ∀ fuel, 32 * tokens.length + 14 < fuel →
    Follows ending tokens (index functions fuel cell)
      (Expr.parseIndex ⟨ending, functions⟩ cell tokens)

def CallFollows (callable : Callable) (tokens : List Token) : Prop :=
  ∀ fuel, 32 * tokens.length + 17 < fuel →
    Follows ending tokens (callWith functions fuel callable)
      (Expr.parseCall ⟨ending, functions⟩ callable tokens)

def ArgumentsFollow (tokens : List Token) : Prop :=
  ∀ fuel, 32 * tokens.length + 15 < fuel →
    Follows ending tokens (arguments functions fuel)
      (Expr.parseArguments ⟨ending, functions⟩ tokens)

variable {ending functions}

/-! ## One step of each reader -/

theorem parseOperand_of_error
    {report : Diagnostic} {tokens : List Token} (empty : tokens = []) :
    Expr.parseOperand ⟨.error report, functions⟩ tokens = .error report := by
  subst empty
  rw [Expr.parseOperand]
  rfl

/-- Unary operators and their operand, where nothing is left of the table. -/
theorem follows_unary
    {tokens : List Token} {fuel : Nat}
    (enough : 32 * tokens.length + 1 < fuel)
    (operandFollows :
      OperandFollows ending functions (Unary.readRun [] tokens).rest) :
    Follows ending tokens (unary functions fuel)
      (Expr.parseLevels ⟨ending, functions⟩ [] tokens) := by
  have shorter := (Unary.readRun [] tokens).rest_length_lt
  obtain _ | fuel := fuel
  · cases enough
  rw [unary, Expr.parseLevels]
  refine Ends.bind (ends_signs [] tokens (by omega)) ?_ ?_
  · rintro _ _ ⟨rfl, rfl⟩
    exact (operandFollows fuel (by omega)).bind fun operand => .give _ rfl rfl
  · rintro report ⟨rfl, left⟩
    rw [parseOperand_of_error left]
    rfl

theorem levelsFollow_nil
    {tokens : List Token}
    (operandFollows :
      OperandFollows ending functions (Unary.readRun [] tokens).rest) :
    LevelsFollow ending functions [] tokens := by
  rintro depth (_ | fuel) stands enough
  · cases enough
  rw [binary, table_of_drop_nil stands]
  exact follows_unary (Nat.lt_of_succ_lt_succ enough) operandFollows

theorem levelsFollow_cons
    {level : Level} {tighter : List Level} {tokens : List Token}
    (firstFollows : LevelsFollow ending functions tighter tokens)
    (othersFollow : ∀ operand : Parsed Expr tokens.length,
      OperatorsFollow ending functions level tighter
        operand.value operand.rest) :
    LevelsFollow ending functions (level :: tighter) tokens := by
  rintro depth (_ | fuel) stands enough
  · cases enough
  obtain ⟨found, -, below⟩ := table_of_drop stands
  rw [List.length_cons] at enough
  rw [binary, found, Expr.parseLevels]
  refine (firstFollows _ fuel below (by omega)).bind fun operand => ?_
  have shorter := operand.rest_length_lt
  exact
    (othersFollow operand depth fuel stands (by omega)).same (fun _ => rfl) fun _ => rfl

theorem operatorsFollow_nil
    {level : Level} {tighter : List Level} {lhs : Expr} :
    OperatorsFollow ending functions level tighter lhs [] := by
  rintro depth (_ | _ | fuel) stands enough
  · cases enough
  · omega
  obtain ⟨-, listed, -⟩ := table_of_drop stands
  rw [operators, operatorTurn, bind_assoc, Expr.parseOperators]
  refine Ends.look ?_ ?_
  · rintro last rfl atEnd
    rw [atEnd rfl, operator?_eof level listed]
    exact Follows.give (.stay lhs []) rfl rfl
  · rintro report rfl
    rfl

theorem operatorsFollow_stop
    {level : Level} {tighter : List Level} {lhs : Expr} {token : Token}
    {rest : List Token} (other : level.operator? token.kind = none) :
    OperatorsFollow ending functions level tighter lhs (token :: rest) := by
  rintro depth (_ | _ | fuel) stands enough
  · cases enough
  · omega
  rw [operators, operatorTurn, bind_assoc, Expr.parseOperators]
  refine Ends.look_front ?_
  rw [other]
  exact Follows.give (.stay lhs (token :: rest)) rfl rfl

theorem operatorsFollow_cons
    {level : Level} {tighter : List Level} {lhs : Expr} {token : Token}
    {rest : List Token} {operator : Operator}
    (own : level.operator? token.kind = some operator)
    (rhsFollows : LevelsFollow ending functions tighter rest)
    (othersFollow : ∀ rhs : Parsed Expr rest.length,
      OperatorsFollow ending functions level tighter
        (level.combine operator lhs rhs.value) rhs.rest) :
    OperatorsFollow ending functions level tighter lhs (token :: rest) := by
  rintro depth (_ | _ | fuel) stands enough
  · cases enough
  · omega
  obtain ⟨-, listed, below⟩ := table_of_drop stands
  rw [List.length_cons] at enough
  rw [operators, operatorTurn, bind_assoc, Expr.parseOperators]
  refine Ends.look_front ?_
  simp only [own, bind_assoc]
  -- The operator that is taken pays for the way down the levels to its operand.
  refine Ends.take (ne_eof_of_operator? listed own) ?_
  refine (rhsFollows _ fuel below (by omega)).bind fun rhs => ?_
  have shorter := rhs.rest_length_lt
  exact
    (othersFollow rhs depth (fuel + 1) stands (by omega)).same
      (fun _ => rfl) fun _ => rfl

theorem operandFollows_nil : OperandFollows ending functions [] := by
  rintro (_ | fuel) enough
  · cases enough
  rw [primary, Expr.parseOperand]
  refine Ends.take_last ?_ ?_
  · rintro last rfl atEnd
    rw [atEnd]
    exact ⟨_, rfl, rfl⟩
  · rintro report rfl
    rfl

theorem operandFollows_parenthesis
    {token : Token} {rest : List Token} (opens : token.kind = .lparen)
    (innerFollows : LevelsFollow ending functions Level.table rest) :
    OperandFollows ending functions (token :: rest) := by
  rintro (_ | fuel) enough
  · cases enough
  have deep : 32 * rest.length + 13 < fuel := by
    rw [List.length_cons] at enough
    omega
  rw [primary, Expr.parseOperand]
  simp only [opens]
  refine Ends.take (by rw [opens]; decide) ?_
  simp only [opens]
  refine (innerFollows 0 fuel rfl deep).bind fun inner => ?_
  exact (Follows.expect (by decide)).bind fun close => .give _ rfl rfl

theorem operandFollows_number
    {token : Token} {rest : List Token} (number : token.kind = .number) :
    OperandFollows ending functions (token :: rest) := by
  rintro (_ | fuel) enough
  · cases enough
  rw [primary, Expr.parseOperand]
  simp only [number]
  refine Ends.take (by rw [number]; decide) ?_
  simp only [number]
  exact Follows.give (.stay (Expr.ofText token.payload) rest) rfl rfl

theorem operandFollows_identifier
    {token : Token} {rest : List Token} (identifier : token.kind = .identifier)
    (callsFollow :
      ∀ (opening : Parsed Token rest.length) (callable : Callable),
        CallFollows ending functions callable opening.rest)
    (indicesFollow : ∀ opening : Parsed Token rest.length,
      IndexFollows ending functions token.payload opening.rest) :
    OperandFollows ending functions (token :: rest) := by
  rintro (_ | _ | fuel) enough
  · cases enough
  · rw [List.length_cons] at enough
    omega
  rw [primary, Expr.parseOperand]
  simp only [identifier]
  refine Ends.take (by rw [identifier]; decide) ?_
  simp only [identifier]
  cases rest with
  | nil =>
      refine Ends.look ?_ ?_
      · rintro last rfl atEnd
        rw [atEnd rfl]
        exact Follows.give (.stay (Expr.ofText token.payload) []) rfl rfl
      · rintro report rfl
        rfl
  | cons next later =>
      have deep : 32 * later.length + 17 < fuel := by
        rw [List.length_cons, List.length_cons] at enough
        omega
      refine Ends.look_front ?_
      by_cases calls : next.kind = .lparen
      · simp only [Token.accept, calls, if_true]
        rw [call]
        refine Follows.lift fun callable => ?_
        refine Ends.take_expected rfl calls (by decide) ?_
        exact
          (callsFollow (.stay next later) callable fuel deep).same
            (fun _ => rfl) fun _ => rfl
      · rw [if_neg calls]
        by_cases loads : next.kind = .lbracket
        · simp only [Token.accept, loads, if_true]
          refine Ends.take (by rw [loads]; decide) ?_
          exact
            (indicesFollow (.stay next later) _ (by simp; omega)).same
              (fun _ => rfl) fun _ => rfl
        · simp only [Token.accept, calls, loads, if_false]
          exact
            Follows.give (.stay (Expr.ofText token.payload) (next :: later))
              rfl rfl

theorem operandFollows_other
    {token : Token} {rest : List Token}
    (notParenthesis : token.kind = .lparen → False)
    (notNumber : token.kind = .number → False)
    (notIdentifier : token.kind = .identifier → False) :
    OperandFollows ending functions (token :: rest) := by
  rintro (_ | fuel) enough
  · cases enough
  rw [primary, Expr.parseOperand]
  refine
    Ends.take_refused
      (show _ = throw (Fault.invalidExpression.reportAt token.position) from ?_)
      ?_
  · split
    · next opens => exact (notParenthesis opens).elim
    · next number => exact (notNumber number).elim
    · next identifier => exact (notIdentifier identifier).elim
    · rfl
  · split
    · next opens => exact (notParenthesis opens).elim
    · next number => exact (notNumber number).elim
    · next identifier => exact (notIdentifier identifier).elim
    · rfl

theorem indexFollows_step
    {cell : String} {tokens : List Token}
    (innerFollows : LevelsFollow ending functions Level.table tokens) :
    IndexFollows ending functions cell tokens := by
  rintro (_ | fuel) enough
  · cases enough
  rw [index, Expr.parseIndex]
  refine
    (innerFollows 0 fuel rfl (Nat.lt_of_succ_lt_succ enough)).bind
      fun inner => ?_
  exact (Follows.expect (by decide)).bind fun close => .give _ rfl rfl

theorem callFollows_step
    {callable : Callable} {tokens : List Token}
    (argumentsFollow : ArgumentsFollow ending functions tokens) :
    CallFollows ending functions callable tokens := by
  rintro (_ | _ | fuel) enough
  · cases enough
  · omega
  rw [callWith, argumentList, bind_assoc, Expr.parseCall]
  refine Follows.glance (by decide) ?_ ?_
  · intro close front closes
    rw [if_pos rfl, pure_bind]
    refine Ends.take_expected front closes (by decide) ?_
    rw [← bind_pure (liftExcept _)]
    exact Follows.lift fun call => .give (close.map fun _ => call) rfl rfl
  · intro next opens
    rw [if_neg opens]
    refine (argumentsFollow fuel (by omega)).bind fun args => ?_
    refine (Follows.expect (by decide)).bind fun close => ?_
    rw [← bind_pure (liftExcept _)]
    exact Follows.lift fun call => .give _ rfl rfl

theorem argumentsFollow_step
    {tokens : List Token}
    (firstFollows : LevelsFollow ending functions Level.table tokens)
    (othersFollow :
      ∀ (argument : Parsed Expr tokens.length)
        (comma : Parsed Token argument.rest.length),
        ArgumentsFollow ending functions comma.rest) :
    ArgumentsFollow ending functions tokens := by
  rintro (_ | _ | fuel) enough
  · cases enough
  · omega
  rw [arguments, argumentTurn, Expr.parseArguments]
  simp only [bind_assoc, pure_bind]
  refine
    (firstFollows 0 fuel rfl (by rw [Level.length_table]; omega)).bind
      fun argument => ?_
  refine Follows.accept (by decide) ?_ ?_
  · intro comma
    have shorter := argument.rest_length_lt
    have shortest := comma.rest_length_lt
    refine (othersFollow argument comma (fuel + 1) (by omega)).bind fun others => ?_
    exact .give _ rfl rfl
  · exact .give _ rfl rfl

/-! ## All readers of expressions -/

theorem readers_follow (tokens : List Token) :
    (∀ levels, LevelsFollow ending functions levels tokens) ∧
      OperandFollows ending functions tokens ∧
      ∀ callable, CallFollows ending functions callable tokens := by
  have readers :=
    Expr.parseLevels.mutual_induct
      (LevelsFollow ending functions)
      (OperatorsFollow ending functions)
      (OperandFollows ending functions)
      (IndexFollows ending functions)
      (CallFollows ending functions)
      (ArgumentsFollow ending functions)
      (fun _ => levelsFollow_nil)
      (fun _ _ _ => levelsFollow_cons)
      (fun _ _ _ => operatorsFollow_nil)
      (fun _ _ _ _ _ => operatorsFollow_stop)
      (fun _ _ _ _ _ _ => operatorsFollow_cons)
      operandFollows_nil
      (fun _ _ => operandFollows_parenthesis)
      (fun _ _ => operandFollows_number)
      (fun _ _ => operandFollows_identifier)
      (fun _ _ => operandFollows_other)
      (fun _ _ => indexFollows_step)
      (fun _ _ => callFollows_step)
      (fun _ => argumentsFollow_step)
  obtain ⟨levels, -, operands, -, calls, -⟩ := readers
  exact
    ⟨fun chosen => levels chosen tokens, operands tokens,
      fun callable => calls callable tokens⟩

theorem follows_binary
    {tokens : List Token} {fuel : Nat} (depth : Nat)
    (enough : 32 * tokens.length + 13 < fuel) :
    Follows ending tokens (binary functions fuel depth)
      (Expr.parseLevels ⟨ending, functions⟩ (Level.table.drop depth) tokens) := by
  have short : (Level.table.drop depth).length ≤ 11 := by
    rw [List.length_drop, Level.length_table]
    exact Nat.sub_le 11 depth
  exact (readers_follow tokens).1 _ depth fuel rfl (by omega)

theorem follows_expression
    {tokens : List Token} {fuel : Nat}
    (enough : 32 * tokens.length + 13 < fuel) :
    Follows ending tokens (expression functions fuel)
      (Expr.parse ⟨ending, functions⟩ tokens) :=
  follows_binary 0 enough

/-- A call behind its name is resolved, and then its argument list is read. -/
theorem follows_call
    {tokens : List Token} {fuel : Nat} (name : Token)
    (enough : 32 * tokens.length < fuel) :
    Follows ending tokens (call functions fuel name)
      (do
        let callable ← Expr.Context.resolve ⟨ending, functions⟩ name
        let opening ← Token.expect ending .lparen tokens
        let call ← Expr.parseCall ⟨ending, functions⟩ callable opening.rest
        .ok (opening.andThen call)) := by
  obtain _ | fuel := fuel
  · cases enough
  rw [call]
  refine Follows.lift fun callable => ?_
  refine (Follows.expect (by decide)).bind fun opening => ?_
  have shorter := opening.rest_length_lt
  exact
    ((readers_follow opening.rest).2.2 callable fuel (by omega)).same
      (fun _ => rfl) fun _ => rfl

end Following

end FlatCode.Demand
