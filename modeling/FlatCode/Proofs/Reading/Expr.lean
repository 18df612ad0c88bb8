import FlatCode.Expr.Parser
import FlatCode.Proofs.Reading.Token

/-!
# What reading an expression builds

Every expression that is read is built bottom-up from its tokens by five
operations: an atom, an operation of a level, a unary operator, a load and a
call.  A property of expressions that these five operations keep is `Inherited`,
and then it holds of every expression that is read.

The tokens themselves may be known to have some property of their own, which is
then at hand for the tokens that end up in an atom or as the name of a cell.
-/

namespace FlatCode.Expr

open Token (Parsed Sound accept expect)

/-- The operations of reading keep a property of expressions, where `known`
holds of all tokens. -/
structure Inherited
    (functions : List Callee) (known : Token → Prop)
    (property : Expr → Prop) : Prop where
  atom : ∀ token, known token →
    token.kind = .number ∨ token.kind = .identifier →
      property (.ofText token.payload)
  combine : ∀ level ∈ Level.table, ∀ kind operator,
    level.operator? kind = some operator →
      ∀ lhs rhs, property lhs → property rhs →
        property (level.combine operator lhs rhs)
  unary : ∀ unary operand, property operand →
    property (Unary.apply unary operand)
  load : ∀ token, known token → token.kind = .identifier →
    ∀ index, property index →
      property (.ofLoad token.payload index.normalize)
  call : ∀ name callable,
    Callable.resolve? functions name = some callable →
      ∀ args : List Expr, (∀ arg ∈ args, property arg) →
        ∀ result, callable.call? (args.map normalize) = some result →
          property result

/-- Two inherited properties are inherited together. -/
theorem Inherited.and
    {functions : List Callee} {known : Token → Prop}
    {first second : Expr → Prop}
    (left : Inherited functions known first)
    (right : Inherited functions known second) :
    Inherited functions known fun expr => first expr ∧ second expr where
  atom token tokenKnown isOpen :=
    ⟨left.atom token tokenKnown isOpen, right.atom token tokenKnown isOpen⟩
  combine level member kind operator found lhs rhs lhsHolds rhsHolds :=
    ⟨left.combine level member kind operator found lhs rhs lhsHolds.1
        rhsHolds.1,
      right.combine level member kind operator found lhs rhs lhsHolds.2
        rhsHolds.2⟩
  unary unary operand holds :=
    ⟨left.unary unary operand holds.1, right.unary unary operand holds.2⟩
  load token tokenKnown isIdentifier index holds :=
    ⟨left.load token tokenKnown isIdentifier index holds.1,
      right.load token tokenKnown isIdentifier index holds.2⟩
  call name callable resolved args holds result called :=
    ⟨left.call name callable resolved args (fun arg member =>
        (holds arg member).1) result called,
      right.call name callable resolved args (fun arg member =>
        (holds arg member).2) result called⟩

section Readers

variable {context : Context} {known : Token → Prop} {property : Expr → Prop}

/-- The rest behind a run of unary operators is made of tokens of the list. -/
theorem mem_of_mem_readRun_rest
    {run : List Unary} {tokens : List Token} {token : Token}
    (member : token ∈ (Unary.readRun run tokens).rest) :
    token ∈ tokens := by
  induction tokens generalizing run with
  | nil =>
      simp [Unary.readRun] at member
  | cons first rest inductionHypothesis =>
      rw [Unary.readRun] at member
      split at member
      · exact List.mem_cons_of_mem first (inductionHypothesis member)
      · exact member

/-- Applying a run of unary operators keeps an inherited property. -/
theorem Inherited.applyAll
    (inherited : Inherited context.functions known property)
    (run : List Unary) {operand : Expr} (holds : property operand) :
    property (Unary.applyAll run operand) := by
  induction run generalizing operand with
  | nil =>
      exact holds
  | cons nearest outer inductionHypothesis =>
      exact inductionHypothesis (inherited.unary nearest operand holds)

/-- A resolved name is known to the context. -/
theorem resolve?_of_resolve
    {name : Token} {callable : Callable}
    (resolved : context.resolve name = .ok callable) :
    Callable.resolve? context.functions name.payload = some callable := by
  unfold Context.resolve at resolved
  split at resolved
  · next found =>
      cases resolved
      exact found
  · cases resolved

/-- A finished call has the right number of arguments. -/
theorem call?_of_finishCall
    {callable : Callable} {args : List Expr} {close : Token} {result : Expr}
    (finished : finishCall callable args close = .ok result) :
    callable.call? args = some result := by
  unfold finishCall at finished
  split at finished
  · next found =>
      cases finished
      exact found
  · cases finished

/-- A list of arguments with an inherited property before normalization. -/
def ArgumentsHave (property : Expr → Prop) (args : List Expr) : Prop :=
  ∃ raw : List Expr, args = raw.map normalize ∧ ∀ arg ∈ raw, property arg

/-! ## One statement for each reader -/

variable (context known property)

/-- Reading an expression of the given levels is sound. -/
def LevelsSound (levels : List Level) (tokens : List Token) : Prop :=
  (∀ level ∈ levels, level ∈ Level.table) →
    (∀ token ∈ tokens, known token) →
      ∀ parsed, parseLevels context levels tokens = .ok parsed →
        Sound known property parsed

def OperatorsSound
    (level : Level) (tighter : List Level) (lhs : Expr)
    (tokens : List Token) : Prop :=
  level ∈ Level.table → (∀ next ∈ tighter, next ∈ Level.table) →
    property lhs → (∀ token ∈ tokens, known token) →
      ∀ parsed,
        parseOperators context level tighter lhs tokens = .ok parsed →
          Sound known property parsed

def OperandSound (tokens : List Token) : Prop :=
  (∀ token ∈ tokens, known token) →
    ∀ parsed, parseOperand context tokens = .ok parsed →
      Sound known property parsed

def IndexSound (cell : String) (tokens : List Token) : Prop :=
  (∃ name, known name ∧ name.kind = .identifier ∧ name.payload = cell) →
    (∀ token ∈ tokens, known token) →
      ∀ parsed, parseIndex context cell tokens = .ok parsed →
        Sound known property parsed

def CallSound (callable : Callable) (tokens : List Token) : Prop :=
  (∃ name, Callable.resolve? context.functions name = some callable) →
    (∀ token ∈ tokens, known token) →
      ∀ parsed, parseCall context callable tokens = .ok parsed →
        Sound known property parsed

def ArgumentsSound (tokens : List Token) : Prop :=
  (∀ token ∈ tokens, known token) →
    ∀ parsed, parseArguments context tokens = .ok parsed →
      Sound known (ArgumentsHave property) parsed

variable {context known property}

/-! ## One step of each reader -/

theorem levelsSound_nil
    {tokens : List Token}
    (inherited : Inherited context.functions known property)
    (operandSound :
      OperandSound context known property (Unary.readRun [] tokens).rest) :
    LevelsSound context known property [] tokens := by
  intro _ tokensKnown parsed read
  rw [parseLevels] at read
  obtain ⟨operand, operandRead, read⟩ := bind_eq_ok_iff.mp read
  cases read
  have sound :=
    operandSound
      (fun token member => tokensKnown token (mem_of_mem_readRun_rest member))
      operand operandRead
  exact ⟨inherited.applyAll _ sound.value, sound.rest⟩

theorem levelsSound_cons
    {level : Level} {tighter : List Level} {tokens : List Token}
    (firstSound : LevelsSound context known property tighter tokens)
    (othersSound : ∀ first : Parsed Expr tokens.length,
      OperatorsSound context known property level tighter
        first.value first.rest) :
    LevelsSound context known property (level :: tighter) tokens := by
  intro inTable tokensKnown parsed read
  have tighterInTable : ∀ next ∈ tighter, next ∈ Level.table :=
    fun next member => inTable next (List.mem_cons_of_mem level member)
  rw [parseLevels] at read
  obtain ⟨first, firstRead, read⟩ := bind_eq_ok_iff.mp read
  obtain ⟨whole, wholeRead, read⟩ := bind_eq_ok_iff.mp read
  cases read
  have firstHas := firstSound tighterInTable tokensKnown first firstRead
  have wholeHas :=
    othersSound first (inTable level List.mem_cons_self) tighterInTable
      firstHas.value firstHas.rest whole wholeRead
  exact ⟨wholeHas.value, wholeHas.rest⟩

theorem operatorsSound_nil
    {level : Level} {tighter : List Level} {lhs : Expr} :
    OperatorsSound context known property level tighter lhs [] := by
  intro _ _ holds tokensKnown parsed read
  rw [parseOperators] at read
  obtain ⟨_, _, read⟩ := bind_eq_ok_iff.mp read
  cases read
  exact ⟨holds, tokensKnown⟩

theorem operatorsSound_stop
    {level : Level} {tighter : List Level} {lhs : Expr} {token : Token}
    {rest : List Token} (foreign : level.operator? token.kind = none) :
    OperatorsSound context known property level tighter lhs
      (token :: rest) := by
  intro _ _ holds tokensKnown parsed read
  rw [parseOperators] at read
  simp only [foreign] at read
  cases read
  exact ⟨holds, tokensKnown⟩

theorem operatorsSound_cons
    {level : Level} {tighter : List Level} {lhs : Expr} {token : Token}
    {rest : List Token} {operator : Operator}
    (inherited : Inherited context.functions known property)
    (own : level.operator? token.kind = some operator)
    (rhsSound : LevelsSound context known property tighter rest)
    (othersSound : ∀ rhs : Parsed Expr rest.length,
      OperatorsSound context known property level tighter
        (level.combine operator lhs rhs.value) rhs.rest) :
    OperatorsSound context known property level tighter lhs
      (token :: rest) := by
  intro inTable tighterInTable holds tokensKnown parsed read
  rw [parseOperators] at read
  simp only [own] at read
  obtain ⟨rhs, rhsRead, read⟩ := bind_eq_ok_iff.mp read
  obtain ⟨whole, wholeRead, read⟩ := bind_eq_ok_iff.mp read
  cases read
  have rhsHas :=
    rhsSound tighterInTable
      (fun next member => tokensKnown next (List.mem_cons_of_mem token member))
      rhs rhsRead
  have combined : property (level.combine operator lhs rhs.value) :=
    inherited.combine level inTable token.kind operator own
      lhs rhs.value holds rhsHas.value
  have wholeHas :=
    othersSound rhs inTable tighterInTable combined rhsHas.rest whole wholeRead
  exact ⟨wholeHas.value, wholeHas.rest⟩

theorem operandSound_nil : OperandSound context known property [] := by
  intro _ parsed read
  rw [parseOperand] at read
  obtain ⟨_, _, read⟩ := bind_eq_ok_iff.mp read
  cases read

theorem operandSound_parenthesis
    {token : Token} {rest : List Token} (opens : token.kind = .lparen)
    (innerSound : LevelsSound context known property Level.table rest) :
    OperandSound context known property (token :: rest) := by
  intro tokensKnown parsed read
  rw [parseOperand] at read
  simp only [opens] at read
  obtain ⟨inner, innerRead, read⟩ := bind_eq_ok_iff.mp read
  obtain ⟨close, closeRead, read⟩ := bind_eq_ok_iff.mp read
  cases read
  have innerHas :=
    innerSound (fun _ member => member)
      (fun next member => tokensKnown next (List.mem_cons_of_mem token member))
      inner innerRead
  have split := (Token.eq_cons_of_expect closeRead).1
  refine ⟨innerHas.value, fun next member => innerHas.rest next ?_⟩
  rw [split]
  exact List.mem_cons_of_mem close.value member

theorem operandSound_number
    {token : Token} {rest : List Token}
    (inherited : Inherited context.functions known property)
    (number : token.kind = .number) :
    OperandSound context known property (token :: rest) := by
  intro tokensKnown parsed read
  rw [parseOperand] at read
  simp only [number] at read
  cases read
  exact
    ⟨inherited.atom token (tokensKnown token List.mem_cons_self)
        (Or.inl number),
      fun next member => tokensKnown next (List.mem_cons_of_mem token member)⟩

theorem operandSound_identifier
    {token : Token} {rest : List Token}
    (inherited : Inherited context.functions known property)
    (identifier : token.kind = .identifier)
    (callSound :
      ∀ (opening : Parsed Token rest.length) (callable : Callable),
        CallSound context known property callable opening.rest)
    (indexSound : ∀ opening : Parsed Token rest.length,
      IndexSound context known property token.payload opening.rest) :
    OperandSound context known property (token :: rest) := by
  intro tokensKnown parsed read
  have tokenKnown : known token := tokensKnown token List.mem_cons_self
  have restKnown : ∀ next ∈ rest, known next :=
    fun next member => tokensKnown next (List.mem_cons_of_mem token member)
  have behind : ∀ opening : Parsed Token rest.length,
      rest = opening.value :: opening.rest →
        ∀ next ∈ opening.rest, known next := by
    intro opening split next member
    apply restKnown next
    rw [split]
    exact List.mem_cons_of_mem opening.value member
  rw [parseOperand] at read
  simp only [identifier] at read
  obtain ⟨parenthesis, parenthesisRead, read⟩ := bind_eq_ok_iff.mp read
  cases parenthesis with
  | some opening =>
      obtain ⟨callable, resolved, read⟩ := bind_eq_ok_iff.mp read
      obtain ⟨call, callRead, read⟩ := bind_eq_ok_iff.mp read
      cases read
      have split := (Token.eq_cons_of_accept parenthesisRead).1
      have callHas :=
        callSound opening callable
          ⟨token.payload, resolve?_of_resolve resolved⟩
          (behind opening split) call callRead
      exact ⟨callHas.value, callHas.rest⟩
  | none =>
      obtain ⟨bracket, bracketRead, read⟩ := bind_eq_ok_iff.mp read
      cases bracket with
      | some opening =>
          obtain ⟨load, loadRead, read⟩ := bind_eq_ok_iff.mp read
          cases read
          have split := (Token.eq_cons_of_accept bracketRead).1
          have loadHas :=
            indexSound opening ⟨token, tokenKnown, identifier, rfl⟩
              (behind opening split) load loadRead
          exact ⟨loadHas.value, loadHas.rest⟩
      | none =>
          cases read
          exact ⟨inherited.atom token tokenKnown (Or.inr identifier), restKnown⟩

theorem operandSound_other
    {token : Token} {rest : List Token}
    (notParenthesis : token.kind = .lparen → False)
    (notNumber : token.kind = .number → False)
    (notIdentifier : token.kind = .identifier → False) :
    OperandSound context known property (token :: rest) := by
  intro _ parsed read
  rw [parseOperand] at read
  split at read
  · next opens => exact (notParenthesis opens).elim
  · next number => exact (notNumber number).elim
  · next identifier => exact (notIdentifier identifier).elim
  · cases read

theorem indexSound_step
    {cell : String} {tokens : List Token}
    (inherited : Inherited context.functions known property)
    (innerSound : LevelsSound context known property Level.table tokens) :
    IndexSound context known property cell tokens := by
  rintro ⟨name, nameKnown, identifier, rfl⟩ tokensKnown parsed read
  rw [parseIndex] at read
  obtain ⟨index, indexRead, read⟩ := bind_eq_ok_iff.mp read
  obtain ⟨close, closeRead, read⟩ := bind_eq_ok_iff.mp read
  cases read
  have indexHas :=
    innerSound (fun _ member => member) tokensKnown index indexRead
  have split := (Token.eq_cons_of_expect closeRead).1
  refine
    ⟨inherited.load name nameKnown identifier index.value indexHas.value,
      fun next member => indexHas.rest next ?_⟩
  rw [split]
  exact List.mem_cons_of_mem close.value member

theorem callSound_step
    {callable : Callable} {tokens : List Token}
    (inherited : Inherited context.functions known property)
    (argumentsSound : ArgumentsSound context known property tokens) :
    CallSound context known property callable tokens := by
  rintro ⟨name, resolved⟩ tokensKnown parsed read
  rw [parseCall] at read
  obtain ⟨parenthesis, parenthesisRead, read⟩ := bind_eq_ok_iff.mp read
  cases parenthesis with
  | some close =>
      obtain ⟨call, finished, read⟩ := bind_eq_ok_iff.mp read
      cases read
      have split := (Token.eq_cons_of_accept parenthesisRead).1
      refine
        ⟨inherited.call name callable resolved [] (by simp) call
            (call?_of_finishCall finished),
          fun next member => tokensKnown next ?_⟩
      rw [split]
      exact List.mem_cons_of_mem close.value member
  | none =>
      obtain ⟨args, argsRead, read⟩ := bind_eq_ok_iff.mp read
      obtain ⟨close, closeRead, read⟩ := bind_eq_ok_iff.mp read
      obtain ⟨call, finished, read⟩ := bind_eq_ok_iff.mp read
      cases read
      have argsHave := argumentsSound tokensKnown args argsRead
      obtain ⟨raw, normalized, rawHave⟩ := argsHave.value
      have split := (Token.eq_cons_of_expect closeRead).1
      rw [normalized] at finished
      refine
        ⟨inherited.call name callable resolved raw rawHave call
            (call?_of_finishCall finished),
          fun next member => argsHave.rest next ?_⟩
      rw [split]
      exact List.mem_cons_of_mem close.value member

theorem argumentsSound_step
    {tokens : List Token}
    (firstSound : LevelsSound context known property Level.table tokens)
    (othersSound :
      ∀ (first : Parsed Expr tokens.length)
        (comma : Parsed Token first.rest.length),
        ArgumentsSound context known property comma.rest) :
    ArgumentsSound context known property tokens := by
  intro tokensKnown parsed read
  rw [parseArguments] at read
  obtain ⟨first, firstRead, read⟩ := bind_eq_ok_iff.mp read
  obtain ⟨separator, separatorRead, read⟩ := bind_eq_ok_iff.mp read
  have firstHas :=
    firstSound (fun _ member => member) tokensKnown first firstRead
  cases separator with
  | none =>
      cases read
      exact ⟨⟨[first.value], rfl, by simpa using firstHas.value⟩, firstHas.rest⟩
  | some comma =>
      obtain ⟨others, othersRead, read⟩ := bind_eq_ok_iff.mp read
      cases read
      have split := (Token.eq_cons_of_accept separatorRead).1
      have othersHave :=
        othersSound first comma
          (fun next member => firstHas.rest next
            (split ▸ List.mem_cons_of_mem comma.value member))
          others othersRead
      obtain ⟨raw, normalized, rawHave⟩ := othersHave.value
      refine ⟨⟨first.value :: raw, ?_, ?_⟩, othersHave.rest⟩
      · exact congrArg (first.value.normalize :: ·) normalized
      · intro arg member
        rcases List.mem_cons.mp member with rfl | later
        · exact firstHas.value
        · exact rawHave arg later

/-- Reading an expression builds one with every inherited property. -/
theorem sound_of_parse
    {tokens : List Token} {parsed : Parsed Expr tokens.length}
    (inherited : Inherited context.functions known property)
    (tokensKnown : ∀ token ∈ tokens, known token)
    (read : parse context tokens = .ok parsed) :
    Sound known property parsed := by
  have readers :=
    parseLevels.mutual_induct
      (LevelsSound context known property)
      (OperatorsSound context known property)
      (OperandSound context known property)
      (IndexSound context known property)
      (CallSound context known property)
      (ArgumentsSound context known property)
      (fun _ => levelsSound_nil inherited)
      (fun _ _ _ => levelsSound_cons)
      (fun _ _ _ => operatorsSound_nil)
      (fun _ _ _ _ _ => operatorsSound_stop)
      (fun _ _ _ _ _ _ => operatorsSound_cons inherited)
      operandSound_nil
      (fun _ _ => operandSound_parenthesis)
      (fun _ _ => operandSound_number inherited)
      (fun _ _ => operandSound_identifier inherited)
      (fun _ _ => operandSound_other)
      (fun _ _ => indexSound_step inherited)
      (fun _ _ => callSound_step inherited)
      (fun _ => argumentsSound_step)
  exact
    readers.1 Level.table tokens (fun _ member => member) tokensKnown parsed read

end Readers

end FlatCode.Expr
