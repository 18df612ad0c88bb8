import FlatCode.Proofs.Evaluation.Listed
import FlatCode.Proofs.Evaluation.Write
import FlatCode.Proofs.Simulation.Arrival
import FlatCode.Proofs.Simulation.Program

/-!
# The values that operands are used with

Operands are evaluated from left to right.  The second operand is used with the value
it has then, and so is the first one if it was computed, because its value is in a
temporary that the code behind it leaves alone.

A first operand that is a variable is not copied: the instruction that uses both
operands reads it.  A call in the second operand may have changed it by then, if a
function in reach of that call has the variable as a parameter or assigns it.
`Usage.Steady` excludes this case.
-/

namespace FlatCode

open Entry

variable {Value Memory : Type} [DecidableEq Value]

namespace Usage

/-- The code of a usage is carried out: the machine starts at its first instruction
with what the store holds, and comes to the instruction that uses the operands. -/
structure Run
    (assembly : Assembly) (target : Target Value Memory) (usage : Usage)
    (store : Store Value Memory) (before after : State String Value Memory) :
    Prop where
  here : before.counter = usage.address
  agrees : Agrees store before
  comes : target.ComesTo Operand.render assembly usage.last before after

/-- Evaluate the operands of a usage one after the other. -/
def eval
    (program : Program) (target : Target Value Memory) (fuel : Nat)
    (usage : Usage) (store : Store Value Memory) :
    Option ((Held Value × Store Value Memory) ×
      (Held Value × Store Value Memory)) := do
  let left ← target.eval (program.call target fuel) usage.first store
  let right ← target.eval (program.call target fuel) usage.second left.2
  some (left, right)

/-- The instruction behind the operands uses the second one with the value it had when
it was evaluated, and the first one with the value it has in one of the two stores
behind their evaluation. -/
def UsedIn
    (program : Program) (assembly : Assembly) (usage : Usage)
    (choose : ∀ {Value Memory : Type},
      Store Value Memory → Store Value Memory → Store Value Memory) : Prop :=
  ∀ {Value Memory : Type} [DecidableEq Value] (target : Target Value Memory)
    (store : Store Value Memory) (before after : State String Value Memory),
    usage.Run assembly target store before after →
      ∃ bound, ∀ fuel, bound ≤ fuel →
        ∃ left right,
          usage.eval program target fuel store = some (left, right) ∧
            target.value Operand.render after usage.early.operand =
              target.get (choose left.2 right.2) left.1 ∧
            target.value Operand.render after usage.late.operand =
              target.get right.2 right.1

/-- Both operands are used with the values they had when they were evaluated. -/
def Fixed (program : Program) (assembly : Assembly) (usage : Usage) : Prop :=
  usage.UsedIn program assembly fun early _ => early

/-- Both operands are used with the values they have when both were evaluated. -/
def Settled (program : Program) (assembly : Assembly) (usage : Usage) : Prop :=
  usage.UsedIn program assembly fun _ late => late

/-- The first operand is computed, or it is a variable that no call in the second
operand writes. -/
def Steady (program : Program) (usage : Usage) : Prop :=
  ∀ truth text, usage.first = .atom truth text →
    ¬ program.Disturbs usage.second text

end Usage

/-! ## The machine at a usage -/

namespace Program

/-- The code of the operands of a usage can be followed: it takes temporaries that the
functions in reach leave alone, and these functions are served even if the machine is
stopped behind the operands. -/
structure Follows
    (program : Program) (assembly : Assembly) (usage : Usage)
    (functions : List Function) (kept : Kept) : Prop where
  known : ∀ function ∈ functions, function ∈ program.functions
  first : usage.first.Plain (functions.map Function.callee)
  second : usage.second.Plain (functions.map Function.callee)
  carried : assembly.Carries usage.address (emitAll usage.code)
  own : ∀ number, usage.temps < number → number ≤ usage.late.temps →
    kept.temp number
  serves : ∀ {Value Memory : Type} [DecidableEq Value]
    (target : Target Value Memory) (fuel : Nat),
    Serves target (assembly.haltAt usage.last) (program.call target fuel)
      (program.callTrace target fuel) fuel kept (functions.map Function.callee)

variable {program : Program} {emitted : Assembly} {usage : Usage}

theorem follows_of_mem_main
    (plain : program.Plain)
    (assembled :
      Assembly.ofEntries program.labels program.lower = .ok emitted)
    (member :
      usage ∈ Stmt.usagesAll ⟨program.labels.created, 0⟩ 0 program.main) :
    program.Follows emitted.guarded usage program.functions
      (Kept.outside program.mainCode.2.temps
        (Function.lowerAll program.mainCode.2 program.functions).2.temps
        program.functions) := by
  have lies :=
    Stmt.usagesLieAll program.main none _ plain.main
      ⟨program.labels.created, 0⟩ 0 (carries_parts assembled).1 usage member
  have inside : usage.last < program.mainWidth := by
    have before := lies.before
    rwa [Nat.zero_add] at before
  have carries :
      (emitted.guarded.haltAt usage.last).Carries (program.mainWidth + 1)
        (Function.lowerAll program.mainCode.2 program.functions).1 :=
    (carries_functions assembled).haltAt (Or.inl (Nat.lt_succ_of_lt inside))
  exact
    { known := fun _ listed => listed
      first := lies.first
      second := lies.second
      carried := lies.carried
      own := fun _ _ below => Or.inl (Nat.le_trans below lies.below)
      serves := fun target fuel =>
        servesAll_of_carries target plain (List.append_nil _).symm carries
          fuel }

theorem follows_of_mem_block
    (plain : program.Plain)
    (assembled :
      Assembly.ofEntries program.labels program.lower = .ok emitted)
    {block : Block} (blockMember : block ∈ program.blocks)
    (member : usage ∈ block.usages) :
    program.Follows emitted.guarded usage block.earlier
      (Kept.outside program.mainCode.2.temps block.supply.temps
        block.earlier) := by
  obtain ⟨created, formed⟩ :=
    Function.formed_of_mem_blocks plain.functions blockMember
  have lies :=
    Stmt.usagesLieAll block.function.body none created formed.body
      block.supply block.address
      (carries_of_mem_blocks assembled blockMember).2 usage member
  obtain ⟨above, below, earlier, listed, supplied, placed⟩ :=
    Function.exists_of_mem_blocks blockMember
  rw [List.nil_append] at earlier
  rw [← earlier] at listed supplied placed
  have carries :
      (emitted.guarded.haltAt usage.last).Carries (program.mainWidth + 1)
        (Function.lowerAll program.mainCode.2 block.earlier).1 := by
    have all := carries_functions assembled
    rw [listed, Function.lowerAll_append, Assembly.carries_append] at all
    refine all.1.haltAt (Or.inr ?_)
    rw [← placed]
    exact Nat.le_trans lies.behind usage.address_le_last
  have serves {Value Memory : Type} [DecidableEq Value]
      (target : Target Value Memory) :=
    servesAll_of_carries target plain listed carries
  rw [← supplied] at serves
  exact
    { known := by
        intro function inside
        rw [listed]
        exact List.mem_append_left _ inside
      first := lies.first
      second := lies.second
      carried := lies.carried
      own := fun _ taken _ =>
        Or.inr (Nat.lt_of_le_of_lt lies.above taken)
      serves := fun target fuel => serves target fuel }

theorem exists_follows
    (plain : program.Plain)
    (assembled :
      Assembly.ofEntries program.labels program.lower = .ok emitted)
    (member : usage ∈ program.usages) :
    ∃ functions kept,
      program.Follows emitted.guarded usage functions kept := by
  rcases List.mem_append.mp member with inMain | inBlock
  · exact ⟨_, _, follows_of_mem_main plain assembled inMain⟩
  · obtain ⟨block, blockMember, inside⟩ := List.mem_flatMap.mp inBlock
    exact ⟨_, _, follows_of_mem_block plain assembled blockMember inside⟩

/-- Stopping the machine somewhere adds no operand that code cannot have. -/
theorem proper_haltAt
    (plain : program.Plain)
    (assembled :
      Assembly.ofEntries program.labels program.lower = .ok emitted)
    (address : Nat) :
    ∀ instruction ∈ (emitted.guarded.haltAt address).code,
      instruction = .noop ∨
        instruction.Aims (· ∈ placed program.lower) Operand.Proper
          fun _ => False := by
  intro instruction member
  rcases Assembly.mem_of_mem_haltAt member with rfl | inside
  · exact Or.inr trivial
  · exact proper_code plain assembled instruction inside

theorem proper_operand
    {callees : List Callee} {expr : Expr} (plain : expr.Plain callees)
    (temps : Nat) :
    (expr.lower .anywhere temps).operand.Proper := by
  have allows : Expr.Allows Operand.Proper [] :=
    ⟨fun _ => trivial, nofun, nofun⟩
  exact
    Expr.good_operand allows (fun word member => (plain.words word member).1)
      temps

namespace Follows

section Operands

variable {assembly : Assembly} {functions : List Function} {kept : Kept}
  (follows : program.Follows assembly usage functions kept)

include follows

theorem code_last :
    assembly.code[usage.last]? = some usage.instruction := by
  have carried := follows.carried
  rw [Usage.code, Assembly.carries_emitAll_append,
    Assembly.carries_emitAll_append] at carried
  exact carried.2.2.1

/-- The machine evaluates both operands, and comes to the instruction that uses
them. -/
theorem leads
    (target : Target Value Memory) (fuel : Nat)
    {state : Machine Value Memory} (here : state.counter = usage.address) :
    ∃ seen,
      Leads target id (assembly.haltAt usage.last) fuel state seen
        (usage.eval program target fuel (observe state))
        fun operands last =>
          last.counter = usage.last ∧
            target.value id last usage.early.operand =
              target.get operands.2.2 operands.1.1 ∧
            target.value id last usage.late.operand =
              target.get operands.2.2 operands.2.1 := by
  have carried := follows.carried
  rw [Usage.code, Assembly.carries_emitAll_append,
    Assembly.carries_emitAll_append] at carried
  have firstCarried :
      (assembly.haltAt usage.last).Carries usage.address
        (emitAll usage.early.code) := by
    refine carried.1.haltAt (Or.inr ?_)
    rw [width_emitAll]
    exact Nat.le_add_right _ _
  have secondCarried :
      (assembly.haltAt usage.last).Carries usage.middle
        (emitAll usage.late.code) := by
    refine carried.2.1.haltAt (Or.inr ?_)
    rw [width_emitAll]
    exact Nat.le_refl _
  have serves := follows.serves target fuel
  refine
    ⟨_, leads_operands (fun _ _ => []) rfl (Nat.le_refl fuel)
      (Expr.followed serves follows.first)
      (Expr.followed serves follows.second) follows.first.words
      follows.second.words follows.own firstCarried secondCarried here ?_⟩
  intro left right last counter _ _ leftValue rightValue
  exact Leads.here ⟨counter, leftValue, rightValue⟩

/-- Evaluating the second operand keeps the value of a first operand that is computed
or that no call writes. -/
theorem get_eq_of_steady
    (formed : program.WellFormed) (steady : usage.Steady program)
    {target : Target Value Memory} {fuel : Nat} {store : Store Value Memory}
    {left right : Held Value × Store Value Memory}
    (evaluated : usage.eval program target fuel store = some (left, right)) :
    target.get right.2 left.1 = target.get left.2 left.1 := by
  obtain ⟨_, first, evaluated⟩ := Option.bind_eq_some_iff.mp evaluated
  obtain ⟨_, second, evaluated⟩ := Option.bind_eq_some_iff.mp evaluated
  cases evaluated
  by_cases atom : usage.first.IsAtom
  · cases shape : usage.first with
    | atom truth text =>
        have same :=
          keeps_of_not_disturbs formed fuel follows.known follows.second.linked
            (steady truth text shape) left.2 right second
        rw [shape, Target.eval] at first
        cases first
        simp only [Target.get, Target.read, same]
    | binary | call | load =>
        rw [shape] at atom
        exact atom.elim
  · obtain ⟨value, held⟩ := exists_value_of_eval atom first
    rw [held]
    rfl

theorem fixed_of_settled
    (formed : program.WellFormed) (settled : usage.Settled program assembly)
    (steady : usage.Steady program) :
    usage.Fixed program assembly := by
  intro Value Memory _ target store before after run
  obtain ⟨bound, answers⟩ := settled target store before after run
  refine ⟨bound, fun fuel fits => ?_⟩
  obtain ⟨left, right, evaluated, first, second⟩ := answers fuel fits
  have same := follows.get_eq_of_steady formed steady evaluated
  exact ⟨left, right, evaluated, first.trans same, second⟩

end Operands

section Texts

variable {functions : List Function} {kept : Kept}
  (follows : program.Follows emitted.guarded usage functions kept)
  (plain : program.Plain)
  (assembled :
    Assembly.ofEntries program.labels program.lower = .ok emitted)

include follows plain assembled

/-- The machine does the same with one variable for each text. -/
theorem leads_of_agrees
    (target : Target Value Memory) (fuel : Nat) {store : Store Value Memory}
    {before : State String Value Memory}
    (here : before.counter = usage.address) (agrees : Agrees store before) :
    ∃ seen,
      Leads target Operand.render (emitted.guarded.haltAt usage.last) fuel
        before seen (usage.eval program target fuel store)
        fun operands last =>
          last.counter = usage.last ∧
            target.value Operand.render last usage.early.operand =
              target.get operands.2.2 operands.1.1 ∧
            target.value Operand.render last usage.late.operand =
              target.get operands.2.2 operands.2.1 := by
  have firstProper : usage.early.operand.Proper :=
    proper_operand follows.first usage.temps
  have secondProper : usage.late.operand.Proper :=
    proper_operand follows.second usage.early.temps
  have atStart : (Agrees.machine store before).counter = usage.address := here
  obtain ⟨seen, followed⟩ := follows.leads target fuel atStart
  have inner :=
    agrees.alike.leads (proper_haltAt plain assembled usage.last) followed
  rw [agrees.observe_machine] at inner
  refine ⟨seen, inner.mono ?_ (Nat.le_refl fuel)⟩
  rintro operands last _ ⟨machine, alike, counter, first, second⟩
  rw [← alike.counter, ← alike.value_eq firstProper,
    ← alike.value_eq secondProper]
  exact ⟨counter, first, second⟩

/-- Where the evaluation of the operands ends, the machine comes to the instruction
that uses them. -/
theorem exists_run
    {target : Target Value Memory} {fuel : Nat} {store : Store Value Memory}
    {before : State String Value Memory}
    (here : before.counter = usage.address) (agrees : Agrees store before)
    {left right : Held Value × Store Value Memory}
    (evaluated : usage.eval program target fuel store = some (left, right)) :
    ∃ after,
      usage.Run emitted.guarded target store before after ∧
        target.value Operand.render after usage.early.operand =
          target.get right.2 left.1 ∧
        target.value Operand.render after usage.late.operand =
          target.get right.2 right.1 := by
  obtain ⟨seen, leads⟩ :=
    follows.leads_of_agrees plain assembled target fuel here agrees
  rw [evaluated] at leads
  obtain ⟨after, passes, arrived, values⟩ := leads
  obtain ⟨count, run⟩ := passes.exists_steps
  exact
    ⟨after, ⟨here, agrees, Target.comesTo_of_steps run arrived⟩, values⟩

theorem settled : usage.Settled program emitted.guarded := by
  intro Value Memory _ target store before after run
  have answers :=
    run.comes.exists_answer fun fuel =>
      follows.leads_of_agrees plain assembled target fuel run.here run.agrees
  obtain ⟨bound, answers⟩ := answers
  refine ⟨bound, fun fuel fits => ?_⟩
  obtain ⟨⟨left, right⟩, values⟩ := answers fuel fits
  exact ⟨left, right, values⟩

end Texts

end Follows

def zeroStore : Store Int (Int → Int → Int) :=
  ⟨fun _ => 0, fun _ => 0, fun _ _ => 0⟩

def zeroState : State String Int (Int → Int → Int) :=
  ⟨0, fun _ => 0, fun _ _ => 0⟩

theorem agrees_zero : Agrees zeroStore zeroState :=
  ⟨fun _ _ => rfl, fun _ => rfl, rfl⟩

/-- Every instruction that uses two operands of the source belongs to a usage.  The
operands are evaluated from left to right, and where their evaluation ends the machine
comes to the instruction that uses them.  It uses the second operand with the
value that this operand had when it was evaluated, and the first one with the value it
has when the second one was evaluated.  That is the value it had when it was evaluated
itself, unless it is a variable and a call in the second operand writes it. -/
theorem operands_used_as_evaluated
    {source : String} {program : Program}
    (read : parse source = .ok program) (unraw : program.hasRaw = false)
    (uncounted : "@counter" ∉ program.words) :
    ∃ assembly lines,
      program.assemble = .ok assembly ∧
        assembly.listing = .ok lines ∧
        program.generate = .ok lines ∧
        (∀ (address : Nat) instruction,
          assembly.code[address]? = some instruction → instruction.Joins →
            ∃ usage ∈ program.usages, usage.last = address) ∧
        ∀ usage ∈ program.usages,
          assembly.code[usage.last]? = some usage.instruction ∧
            (∀ {Value Memory : Type} [DecidableEq Value]
              (target : Target Value Memory) (store : Store Value Memory)
              (before : State String Value Memory) (fuel : Nat)
              (left right : Held Value × Store Value Memory),
              before.counter = usage.address → Agrees store before →
                usage.eval program target fuel store = some (left, right) →
                  ∃ after,
                    usage.Run assembly target store before after ∧
                      target.value Operand.render after
                          usage.early.operand =
                        target.get right.2 left.1 ∧
                      target.value Operand.render after usage.late.operand =
                        target.get right.2 right.1) ∧
            usage.Settled program assembly ∧
            (usage.Steady program → usage.Fixed program assembly) := by
  have formed := wellFormed_of_parse read
  have plain := plain_of_parse read unraw uncounted
  obtain ⟨emitted, assembled⟩ := exists_ofEntries formed
  obtain ⟨lines, listed, generated⟩ := exists_generate formed assembled
  refine
    ⟨emitted.guarded, lines, assemble_eq assembled, listed, generated,
      fun _ _ here joins => exists_usage_of_joins assembled here joins, ?_⟩
  intro usage member
  obtain ⟨functions, kept, follows⟩ := exists_follows plain assembled member
  have settled : usage.Settled program emitted.guarded :=
    follows.settled plain assembled
  refine
    ⟨follows.code_last, ?_, settled, follows.fixed_of_settled formed settled⟩
  intro Value Memory _ target store before fuel left right here agrees evaluated
  exact follows.exists_run plain assembled here agrees evaluated

/-- The operand `a + 0` is computed before the call gives the variable a new
value. -/
theorem operands_used_as_evaluated_of_computed_operand :
    ∃ program assembly usage after,
      parse "def f(a) \x7b return a; \x7d x = (a + 0) - f(1);" = .ok program ∧
        program.assemble = .ok assembly ∧
        usage ∈ program.usages ∧
        usage.Fixed program assembly ∧
        usage.Run assembly integers zeroStore zeroState after ∧
        integers.value Operand.render after usage.early.operand = 0 ∧
        integers.value Operand.render after usage.late.operand = 1 := by
  obtain ⟨program, read, accepted⟩ :=
    exists_of_accepted
      (show ((parse
          "def f(a) \x7b return a; \x7d x = (a + 0) - f(1);").toOption.any
            fun program =>
              (!program.hasRaw && !decide ("@counter" ∈ program.words)) &&
                program.usages.any fun usage =>
                  decide
                    (usage.first =
                        .binary .plain .add (.atom .plain "a")
                          (.atom .plain "0") ∧
                      usage.address = 0) &&
                    (usage.eval program integers 2 zeroStore).any
                      fun operands =>
                        decide
                          (integers.get operands.2.2 operands.1.1 = 0 ∧
                            integers.get operands.2.2 operands.2.1 = 1)) =
          true by
        decide +kernel)
  simp only [Bool.and_eq_true, Bool.not_eq_true', decide_eq_false_iff_not,
    List.any_eq_true, Option.any_eq_true, decide_eq_true_eq] at accepted
  obtain ⟨⟨unraw, uncounted⟩, usage, member, ⟨computed, here⟩,
    ⟨left, right⟩, evaluated, first, second⟩ := accepted
  obtain ⟨assembly, _, assembled, _, _, _, used⟩ :=
    operands_used_as_evaluated read unraw uncounted
  obtain ⟨_, comes, _, fixed⟩ := used usage member
  obtain ⟨after, run, early, late⟩ :=
    comes integers zeroStore zeroState 2 left right here.symm agrees_zero
      evaluated
  have steady : usage.Steady program := by
    intro truth text isAtom
    rw [computed] at isAtom
    cases isAtom
  exact
    ⟨program, assembly, usage, after, read, assembled, member, fixed steady,
      run, early.trans first, late.trans second⟩

/-- A call in the second operand changes a variable that is the first operand: the
parameter of the function has the same name. -/
theorem operand_changed_by_call :
    ∃ program assembly usage,
      parse "def f(a) \x7b return a; \x7d x = a + f(1);" = .ok program ∧
        program.hasRaw = false ∧ "@counter" ∉ program.words ∧
        program.assemble = .ok assembly ∧
        usage ∈ program.usages ∧
        ¬ usage.Fixed program assembly := by
  obtain ⟨program, read, accepted⟩ :=
    exists_of_accepted
      (show ((parse
          "def f(a) \x7b return a; \x7d x = a + f(1);").toOption.any
            fun program =>
              (!program.hasRaw && !decide ("@counter" ∈ program.words)) &&
                program.usages.any fun usage =>
                  decide
                    (usage.first = .atom .plain "a" ∧ usage.address = 0) &&
                    (usage.eval program integers 2 zeroStore).any
                      fun operands =>
                        decide
                          (integers.get operands.2.2 operands.1.1 = 1)) =
          true by
        decide +kernel)
  simp only [Bool.and_eq_true, Bool.not_eq_true', decide_eq_false_iff_not,
    List.any_eq_true, Option.any_eq_true, decide_eq_true_eq] at accepted
  obtain ⟨⟨unraw, uncounted⟩, usage, member, ⟨variableFirst, here⟩,
    ⟨left, right⟩, evaluated, changed⟩ := accepted
  have plain := plain_of_parse read unraw uncounted
  obtain ⟨emitted, assembled⟩ := exists_ofEntries (wellFormed_of_parse read)
  obtain ⟨functions, kept, follows⟩ := exists_follows plain assembled member
  obtain ⟨after, run, early, _⟩ :=
    follows.exists_run plain assembled here.symm agrees_zero evaluated
  refine
    ⟨program, emitted.guarded, usage, read, unraw, uncounted,
      assemble_eq assembled, member, ?_⟩
  intro fixed
  obtain ⟨bound, answers⟩ := fixed integers zeroStore zeroState after run
  obtain ⟨first, second, began, used, _⟩ := answers bound (Nat.le_refl bound)
  have unchanged : integers.get first.2 first.1 = 0 := by
    obtain ⟨_, atomDone, began⟩ := Option.bind_eq_some_iff.mp began
    obtain ⟨_, _, began⟩ := Option.bind_eq_some_iff.mp began
    cases began
    rw [variableFirst, Target.eval] at atomDone
    cases atomDone
    decide
  rw [early, changed, unchanged] at used
  cases used

end Program

end FlatCode
