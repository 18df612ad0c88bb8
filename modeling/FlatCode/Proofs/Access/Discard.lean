import FlatCode.Proofs.Access.Basic
import FlatCode.Proofs.Tree.Call
import Mathlib.Algebra.Ring.Nat

/-!
# Stores to the variable that is never written

A value that is stored into `_` is only computed: the instruction that would store it
is left out.  This is decided where the code of an expression ends, so it covers
assignments, results and temporaries.  The parameters of a function are written by
other code, which does not look at their names, and a parameter may be named `_`.

So the code of a program that was read writes `_` in one way only: a call passes an
argument to a parameter of that name.  Each call does so once for each such parameter
of the called function, and where no function has one, `_` is never written.

Both halves are carried through lowering by `Drops`, which says how many instructions
of some code write `_` and that all of them pass on a temporary.
-/

namespace FlatCode

open Entry

theorem Operand.render_eq_discard_iff {operand : Operand} :
    operand.render = "_" ↔ operand = .discard := by
  constructor
  · intro same
    exact (eq_of_render_word (by decide) same.symm).symm
  · rintro rfl
    rfl

namespace Instruction

def WritesDiscard (instruction : Instruction) : Prop :=
  ∃ operand ∈ instruction.target?, operand.render = "_"

theorem writesDiscard_iff {instruction : Instruction} :
    instruction.WritesDiscard ↔ instruction.target? = some .discard := by
  simp [WritesDiscard, Operand.render_eq_discard_iff]

instance : DecidablePred WritesDiscard := fun _ =>
  decidable_of_iff _ writesDiscard_iff.symm

end Instruction

/-! ## Code that writes `_` a number of times -/

/-- A number of instructions write `_`, and each of them copies a temporary. -/
structure Drops (code : List Instruction) (count : Nat) : Prop where
  shape : ∀ instruction ∈ code, instruction.WritesDiscard →
    ∃ number, instruction = .set .discard (.temp number)
  count : code.countP (fun instruction => instruction.WritesDiscard) = count

namespace Drops

variable {first second : List Instruction} {early late : Nat}

theorem append (firstDrops : Drops first early) (secondDrops : Drops second late) :
    Drops (first ++ second) (early + late) := by
  constructor
  · rw [List.forall_mem_append]
    exact ⟨firstDrops.shape, secondDrops.shape⟩
  · rw [List.countP_append, firstDrops.count, secondDrops.count]

/-- Code in which no instruction writes `_`. -/
theorem none
    {code : List Instruction}
    (away : ∀ instruction ∈ code, ¬ instruction.WritesDiscard) :
    Drops code 0 := by
  constructor
  · intro instruction member writes
    exact absurd writes (away instruction member)
  · simpa [List.countP_eq_zero] using away

theorem single
    {instruction : Instruction} (away : instruction.target? ≠ some .discard) :
    Drops [instruction] 0 := by
  apply none
  rw [List.forall_mem_singleton, Instruction.writesDiscard_iff]
  exact away

theorem nil : Drops [] 0 :=
  none (by simp)

theorem append_none
    (firstDrops : Drops first early) (secondDrops : Drops second 0) :
    Drops (first ++ second) early :=
  firstDrops.append secondDrops

theorem leave (function : String) :
    Drops [.set .counter (.resume function)] 0 := by
  have apart : some Operand.counter ≠ some .discard := by decide
  exact single apart

/-- The store at the end of the code of an expression. -/
theorem storing
    {target : Operand} {instruction : Instruction}
    (stores : instruction.target? = some target) :
    Drops (storing target instruction) 0 := by
  unfold FlatCode.storing
  split
  · exact nil
  · next kept =>
      apply single
      rw [stores]
      simpa using kept

/-- Parameters that take temporaries: one write for each of them that is named
`_`. -/
theorem passArguments (callee : Callee) (numbers : List Nat) :
    Drops (callee.passArguments (numbers.map .temp))
      ((callee.params.take numbers.length).count "_") := by
  unfold Callee.passArguments
  induction callee.params generalizing numbers with
  | nil =>
      simpa using nil
  | cons param others inductionHypothesis =>
      cases numbers with
      | nil =>
          simpa using nil
      | cons number later =>
          have rest := inductionHypothesis later
          have passed :
              Drops [.set (.word param) (.temp number)]
                (if param == "_" then 1 else 0) := by
            by_cases named : param = "_"
            · subst named
              refine ⟨?_, ?_⟩
              · simp [Operand.discard]
              · have writes :
                    (Instruction.set (.word "_")
                      (.temp number)).WritesDiscard :=
                  Instruction.writesDiscard_iff.mpr rfl
                simp [writes]
            · have away :
                  (Instruction.set (.word param) (.temp number)).target? ≠
                    some .discard := by
                simpa [Instruction.target?, Operand.discard] using named
              simpa [named] using single away
          rw [List.map_cons, List.zipWith_cons_cons, List.length_cons,
            List.take_succ_cons, List.count_cons, Nat.add_comm]
          exact passed.append rest

end Drops

/-! ## Code of expressions -/

namespace Expr

/-- The parameters named `_` that an expression passes arguments to, if it is a
call. -/
def discardedParams : Expr → Nat
  | .call _ callee args => (callee.params.take args.length).count "_"
  | .atom .. | .binary .. | .load .. => 0

/-- The parameters named `_` that all calls in some expressions pass arguments to. -/
def dropped (exprs : List Expr) : Nat :=
  ((nodesAll exprs).map discardedParams).sum

section Equations

@[simp]
theorem dropped_nil : dropped [] = 0 := by
  simp [dropped, nodesAll]

theorem dropped_cons (first : Expr) (others : List Expr) :
    dropped (first :: others) = dropped [first] + dropped others := by
  simp [dropped, nodesAll]

theorem dropped_append (first second : List Expr) :
    dropped (first ++ second) = dropped first + dropped second := by
  induction first with
  | nil =>
      simp
  | cons head tail inductionHypothesis =>
      rw [List.cons_append, dropped_cons, inductionHypothesis,
        dropped_cons head tail, Nat.add_assoc]

theorem dropped_atom (truth : Truth) (text : String) :
    dropped [.atom truth text] = 0 := by
  simp [dropped, nodesAll, nodes, discardedParams]

theorem dropped_binary (truth : Truth) (operator : Operator) (lhs rhs : Expr) :
    dropped [.binary truth operator lhs rhs] = dropped [lhs] + dropped [rhs] := by
  simp [dropped, nodesAll, nodes, discardedParams]

theorem dropped_call (truth : Truth) (callee : Callee) (args : List Expr) :
    dropped [.call truth callee args] =
      dropped args + (callee.params.take args.length).count "_" := by
  simp [dropped, nodesAll, nodes, discardedParams, Nat.add_comm]

theorem dropped_load (truth : Truth) (cell : String) (index : Expr) :
    dropped [.load truth cell index] = dropped [index] := by
  simp [dropped, nodesAll, nodes, discardedParams]

end Equations

/-- The values of arguments are in temporaries. -/
theorem exists_numbers_of_lowerArguments (temps : Nat) (args : List Expr) :
    ∃ numbers : List Nat,
      (lowerArguments temps args).operands = numbers.map .temp ∧
        numbers.length = args.length := by
  induction args generalizing temps with
  | nil =>
      exact ⟨[], by simp [lowerArguments], rfl⟩
  | cons first others inductionHypothesis =>
      obtain ⟨numbers, operands, length⟩ :=
        inductionHypothesis
          (first.lower (.into (.temp (temps + 1))) (temps + 1)).temps
      refine ⟨(temps + 1) :: numbers, ?_, by simp [length]⟩
      simp [lowerArguments, operands]

theorem drops_anywhere
    {expr : Expr} (temps : Nat)
    (drops : ∀ target temps,
      Drops (expr.lower (.into target) temps).code (dropped [expr])) :
    Drops (expr.lower .anywhere temps).code (dropped [expr]) := by
  by_cases atom : expr.IsAtom
  · cases expr with
    | atom truth text =>
        rw [lower_anywhere_atom, dropped_atom]
        exact .nil
    | binary | call | load =>
        exact atom.elim
  · rw [lower_anywhere_eq_into atom]
    exact drops _ _

theorem drops_lowerArguments
    {args : List Expr} (temps : Nat)
    (drops : ∀ arg ∈ args, ∀ target temps,
      Drops (arg.lower (.into target) temps).code (dropped [arg])) :
    Drops (lowerArguments temps args).code (dropped args) := by
  induction args generalizing temps with
  | nil =>
      rw [lowerArguments, dropped_nil]
      exact .nil
  | cons first others inductionHypothesis =>
      obtain ⟨firstDrops, othersDrop⟩ := List.forall_mem_cons.mp drops
      rw [lowerArguments, dropped_cons]
      exact (firstDrops _ _).append (inductionHypothesis _ othersDrop)

theorem drops_into (expr : Expr) (target : Operand) (temps : Nat) :
    Drops (expr.lower (.into target) temps).code (dropped [expr]) := by
  induction expr generalizing target temps with
  | atom truth text =>
      rw [lower_into_atom, dropped_atom]
      exact .storing rfl
  | binary truth operator lhs rhs lhsDrops rhsDrops =>
      have left := drops_anywhere temps lhsDrops
      have right :=
        drops_anywhere (lhs.lower .anywhere temps).temps rhsDrops
      rw [lower_into_binary, dropped_binary]
      exact left.append (right.append_none (.storing rfl))
  | call truth callee args argsDrop =>
      -- arguments are computed into temporaries, so only parameters can be `_`
      obtain ⟨numbers, operands, length⟩ :=
        exists_numbers_of_lowerArguments temps args
      have passed := drops_lowerArguments temps argsDrop
      have params := Drops.passArguments callee numbers
      have entered : Drops callee.enter 0 := by
        apply Drops.none
        simp [Callee.enter, Instruction.writesDiscard_iff,
          Instruction.target?, Operand.discard]
      rw [← operands, length] at params
      rw [lower_into_call, dropped_call]
      exact
        passed.append
          (params.append_none (entered.append_none (.storing rfl)))
  | load truth cell index indexDrops =>
      have place := drops_anywhere temps indexDrops
      rw [lower_into_load, dropped_load]
      exact place.append_none (.storing rfl)

theorem drops_lower_anywhere (expr : Expr) (temps : Nat) :
    Drops (expr.lower .anywhere temps).code (dropped [expr]) :=
  drops_anywhere temps (drops_into expr)

theorem drops_lowerCondition (expr : Expr) (target : Label) (temps : Nat) :
    Drops (expr.lowerCondition target true temps).1 (dropped [expr]) := by
  rcases lowerCondition_cases expr target temps with
    ⟨truth, operator, other, lhs, rhs, rfl, _, shape⟩ | shape
  · rw [shape, dropped_binary]
    exact
      (drops_lower_anywhere lhs temps).append
        ((drops_lower_anywhere rhs _).append_none (.single nofun))
  · rw [shape]
    exact (drops_lower_anywhere expr temps).append_none (.single nofun)

end Expr

/-! ## Code of statements and programs -/

open FlatCode.Expr (dropped dropped_cons dropped_append dropped_nil drops_into
  drops_lower_anywhere drops_lowerCondition)

namespace Stmt

mutual

theorem drops_lower :
    ∀ (stmt : Stmt) (supply : Supply),
      Drops (instructions (stmt.lower supply).1) (dropped stmt.exprs)
  | .assign target value, supply => by
      rw [lower_assign, instructions_emitAll, exprs]
      exact drops_into value _ _
  | .store cell index value, supply => by
      have stored := drops_lower_anywhere value supply.temps
      have place :=
        drops_lower_anywhere index (value.lower .anywhere supply.temps).temps
      rw [lower_store, instructions_emitAll, exprs, dropped_cons, Nat.add_comm]
      exact stored.append (place.append_none (.single nofun))
  | .ifThen condition thenBranch, supply => by
      have test :=
        drops_lowerCondition condition ⟨supply.labels⟩ supply.temps
      have branch :=
        drops_lower thenBranch
          ⟨supply.labels + 1,
            (condition.lowerCondition ⟨supply.labels⟩ true supply.temps).2⟩
      rw [lower_ifThen, exprs, dropped_cons]
      simpa using test.append branch
  | .ifElse condition thenBranch elseBranch, supply => by
      have test :=
        drops_lowerCondition condition ⟨supply.labels⟩ supply.temps
      have first :=
        drops_lower thenBranch
          ⟨supply.labels + 2,
            (condition.lowerCondition ⟨supply.labels⟩ true supply.temps).2⟩
      have second :=
        drops_lower elseBranch
          (thenBranch.lower
            ⟨supply.labels + 2,
              (condition.lowerCondition
                ⟨supply.labels⟩ true supply.temps).2⟩).2
      have leap :
          Drops [.jump ⟨supply.labels + 1⟩ .always] 0 := .single nofun
      rw [lower_ifElse, exprs, dropped_cons, dropped_append]
      simpa [Nat.add_assoc] using
        test.append ((first.append_none leap).append second)
  | .loop home exit condition body, supply => by
      have test := drops_lowerCondition condition exit supply.temps
      have repeated :=
        drops_lower body
          { supply with
            temps := (condition.lowerCondition exit true supply.temps).2 }
      have back : Drops [.jump home .always] 0 := .single nofun
      rw [lower_loop, exprs, dropped_cons]
      simpa using test.append (repeated.append_none back)
  | .ret function none, supply => by
      rw [lower_ret, exprs]
      exact .leave function
  | .ret function (some value), supply => by
      have stored := drops_into value (.result function) supply.temps
      rw [lower_ret, lowerResult, instructions_emitAll, exprs]
      exact stored.append_none (.leave function)
  | .jump target, supply => by
      rw [lower_jump, exprs]
      exact .single nofun
  | .raw text, supply => by
      rw [lower_raw, exprs]
      exact .single nofun
  | .block body, supply => by
      rw [lower_block, exprs]
      exact drops_lowerAll body supply
  | .empty, supply => by
      rw [lower_empty, exprs]
      exact .nil

theorem drops_lowerAll :
    ∀ (body : List Stmt) (supply : Supply),
      Drops (instructions (lowerAll supply body).1) (dropped (exprsAll body))
  | [], supply => by
      rw [lowerAll_nil, exprsAll]
      exact .nil
  | first :: others, supply => by
      have head := drops_lower first supply
      have tail := drops_lowerAll others (first.lower supply).2
      rw [lowerAll_cons, instructions_append, exprsAll, dropped_append]
      exact head.append tail

end

end Stmt

namespace Function

theorem drops_lowerAll (supply : Supply) (functions : List Function) :
    Drops (instructions (lowerAll supply functions).1)
      ((functions.flatMap fun function =>
        Stmt.nodesAll function.body).map Expr.discardedParams).sum := by
  induction functions generalizing supply with
  | nil =>
      exact .nil
  | cons first others inductionHypothesis =>
      have body := Stmt.drops_lowerAll first.body supply
      rw [lowerAll_cons, instructions_append, lower_eq, instructions_place,
        List.flatMap_cons, List.map_append, List.sum_append]
      exact body.append (inductionHypothesis _)

end Function

namespace Program

variable {source : String} {program : Program} {emitted : Assembly}

theorem drops_lower (program : Program) :
    Drops (instructions program.lower)
      (program.nodes.map Expr.discardedParams).sum := by
  have main : Drops (instructions program.mainCode.1) _ :=
    Stmt.drops_lowerAll program.main ⟨program.labels.created, 0⟩
  have functions :=
    Function.drops_lowerAll program.mainCode.2 program.functions
  have halt : Drops [.halt] 0 := .single nofun
  have behind :
      Drops (instructions program.functionCode)
        ((program.functions.flatMap fun function =>
          Stmt.nodesAll function.body).map Expr.discardedParams).sum := by
    rw [functionCode]
    split
    · next none =>
        rw [none]
        exact .nil
    · simpa using halt.append functions
  rw [lower_eq_append, instructions_append, nodes, List.map_append,
    List.sum_append, Nat.add_comm]
  exact main.append behind

theorem drops_guarded
    (assembled :
      Assembly.ofEntries program.labels program.lower = .ok emitted) :
    Drops emitted.guarded.code.toList
      (program.nodes.map Expr.discardedParams).sum := by
  have drops := drops_lower program
  rcases toList_guarded assembled with code | code
  · rw [code]
    exact drops
  · rw [code]
    exact drops.append_none (.single nofun)

/-- In a program that was read, an expression passes an argument to a parameter named
`_` exactly if it calls a function with such a parameter. -/
theorem discardedParams_pos_iff
    (formed : program.WellFormed) {node : Expr} (member : node ∈ program.nodes) :
    0 < node.discardedParams ↔
      ∃ truth callee args,
        node = .call truth callee args ∧ "_" ∈ callee.params := by
  cases node with
  | call truth callee args =>
      obtain ⟨called, _, rfl, fits⟩ := exists_of_call formed member
      have whole : called.callee.params.take args.length = called.params := by
        rw [fits]
        exact List.take_length
      rw [Expr.discardedParams, whole, List.count_pos_iff]
      constructor
      · intro named
        exact ⟨truth, called.callee, args, rfl, named⟩
      · rintro ⟨_, _, _, same, named⟩
        cases same
        exact named
  | atom | binary | load =>
      simp [Expr.discardedParams]

/-- The code of a program that was read writes `_` only where a call passes the
temporary of an argument to a parameter of that name, once for each such parameter
of each call.  So `_` is written exactly if some function with a parameter `_` is
called. -/
theorem discard_written_by_calls_only
    (read : parse source = .ok program) :
    ∃ assembly,
      program.assemble = .ok assembly ∧
        (∀ instruction ∈ assembly.code, instruction.WritesDiscard →
          ∃ number, instruction = .set .discard (.temp number)) ∧
        (assembly.code.countP fun instruction => instruction.WritesDiscard) =
          (program.nodes.map Expr.discardedParams).sum ∧
        ((∃ instruction ∈ assembly.code, instruction.WritesDiscard) ↔
          ∃ truth callee args,
            Expr.call truth callee args ∈ program.nodes ∧
              "_" ∈ callee.params) := by
  have formed := wellFormed_of_parse read
  obtain ⟨emitted, assembled⟩ := exists_ofEntries formed
  have drops := drops_guarded assembled
  have counted :
      (emitted.guarded.code.countP
        fun instruction => instruction.WritesDiscard) =
        (program.nodes.map Expr.discardedParams).sum := by
    rw [← Array.countP_toList]
    exact drops.count
  refine ⟨emitted.guarded, assemble_eq assembled, ?_, counted, ?_⟩
  · intro instruction member
    exact drops.shape instruction (Array.mem_toList_iff.mpr member)
  · have some :
        (∃ instruction ∈ emitted.guarded.code, instruction.WritesDiscard) ↔
          0 < (program.nodes.map Expr.discardedParams).sum := by
      rw [← counted, Array.countP_pos_iff]
      simp
    have positive :
        0 < (program.nodes.map Expr.discardedParams).sum ↔
          ∃ node ∈ program.nodes, 0 < node.discardedParams := by
      rw [List.sum_pos_iff_exists_pos_nat]
      simp
    rw [some, positive]
    constructor
    · rintro ⟨node, member, passes⟩
      obtain ⟨truth, callee, args, rfl, named⟩ :=
        (discardedParams_pos_iff formed member).mp passes
      exact ⟨truth, callee, args, member, named⟩
    · rintro ⟨truth, callee, args, member, named⟩
      exact
        ⟨_, member,
          (discardedParams_pos_iff formed member).mpr
            ⟨truth, callee, args, rfl, named⟩⟩

/-- Two calls of a function whose first parameter is named `_`, and an assignment to
`_`, which is left out. -/
theorem discard_written_by_calls_only_of_two_calls :
    ∃ program assembly,
      parse "def f(_, a) { return a; }\n_ = f(1, 2) + f(3, 4);" = .ok program ∧
        (program.nodes.map Expr.discardedParams).sum = 2 ∧
        program.assemble = .ok assembly ∧
        (assembly.code.countP fun instruction => instruction.WritesDiscard) = 2 ∧
        ∀ instruction ∈ assembly.code, instruction.WritesDiscard →
          ∃ number, instruction = .set .discard (.temp number) := by
  obtain ⟨program, read, passed⟩ :=
    exists_of_accepted
      (show ((parse
          "def f(_, a) { return a; }\n_ = f(1, 2) + f(3, 4);").toOption.any
            fun program =>
              decide ((program.nodes.map Expr.discardedParams).sum = 2)) = true by
        decide +kernel)
  have passed : (program.nodes.map Expr.discardedParams).sum = 2 :=
    of_decide_eq_true passed
  obtain ⟨assembly, assembled, shape, counted, _⟩ :=
    discard_written_by_calls_only read
  exact
    ⟨program, assembly, read, passed, assembled, counted.trans passed, shape⟩

/-- A call writes `_`, because the parameter of the called function has this name. -/
theorem discard_written_by_call :
    ∃ program assembly,
      parse "def f(_) { return 1; }\nx = f(2);" = .ok program ∧
        program.assemble = .ok assembly ∧
        ∃ instruction ∈ assembly.code, instruction.WritesDiscard := by
  obtain ⟨program, read, accepted⟩ :=
    exists_of_accepted
      (show ((parse "def f(_) { return 1; }\nx = f(2);").toOption.any
          fun program => program.assemble.toOption.any fun assembly =>
            assembly.code.any fun instruction => instruction.WritesDiscard) =
          true by
        decide +kernel)
  obtain ⟨assembly, assembled, writes⟩ := exists_ok_of_any accepted
  obtain ⟨index, inside, here⟩ := Array.any_eq_true.mp writes
  exact
    ⟨program, assembly, read, assembled, _, Array.getElem_mem inside,
      of_decide_eq_true here⟩

end Program

example :
    (compile "def f(_) { return 1; }\n_ = f(2);").toOption =
      some
        ("set $tmp$1 2\nset _ $tmp$1\nop add $ra$f @counter 1\n" ++
          "jump 5 always\nend\nset $ret$f 1\nset @counter $ra$f\n") := by
  decide +kernel

end FlatCode
