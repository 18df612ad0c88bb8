import FlatCode.Proofs.Access.Basic
import FlatCode.Proofs.Evaluation.Usage

/-!
# Every use of two operands is listed

The usages of a program are all instructions of its code that apply an operator, write
a memory cell or compare two operands.  Two forms of instructions look like them and
are none: the one that records where the caller of a function goes on, and the jump
that tests a computed condition against zero.
-/

namespace FlatCode

open Entry

/-- An instruction that uses two operands of the source. -/
def Instruction.Joins : Instruction → Prop
  | .op _ (.resume _) _ _ => False
  | .op .. | .write .. => True
  | .jump _ (.compare operator _ second) =>
      ¬ (operator = .equal ∧ second = .word "0")
  | .jump _ .always | .set .. | .read .. | .raw _ | .halt | .noop => False

/-- Every instruction of code at an address that uses two operands belongs to one of
the usages. -/
def Lists (usages : List Usage) (address : Nat) (code : List Instruction) :
    Prop :=
  ∀ (index : Nat) instruction, code[index]? = some instruction →
    instruction.Joins → ∃ usage ∈ usages, usage.last = address + index

namespace Lists

variable {usages others : List Usage} {address : Nat}
  {first second code : List Instruction} {instruction : Instruction}

theorem idle (none : ∀ instruction ∈ code, ¬ instruction.Joins) :
    Lists [] address code := by
  intro index instruction here joins
  exact absurd joins (none instruction (List.mem_of_getElem? here))

theorem append
    (head : Lists usages address first)
    (tail : Lists others (address + first.length) second) :
    Lists (usages ++ others) address (first ++ second) := by
  intro index instruction here joins
  rw [List.getElem?_append] at here
  by_cases inside : index < first.length
  · rw [if_pos inside] at here
    obtain ⟨usage, member, last⟩ := head index instruction here joins
    exact ⟨usage, List.mem_append_left _ member, last⟩
  · rw [if_neg inside] at here
    obtain ⟨usage, member, last⟩ := tail _ instruction here joins
    exact ⟨usage, List.mem_append_right _ member, by omega⟩

/-- Instructions behind code that use no operands. -/
theorem append_idle
    (head : Lists usages address first)
    (none : ∀ instruction ∈ second, ¬ instruction.Joins) :
    Lists usages address (first ++ second) := by
  have both := head.append (idle none : Lists [] _ second)
  rwa [List.append_nil] at both

theorem single
    {usage : Usage} (here : usage.last = address) :
    Lists [usage] address [instruction] := by
  intro index other found _
  have bound := (List.getElem?_eq_some_iff.mp found).1
  rw [List.length_singleton] at bound
  exact ⟨usage, List.mem_singleton_self usage, by omega⟩

end Lists

/-! ## Code of expressions -/

namespace Expr

def ListsUsages (expr : Expr) : Prop :=
  ∀ destination temps address,
    Lists (expr.usages destination temps address) address
      (expr.lower destination temps).code

theorem listsUsages_of_into
    {expr : Expr}
    (lists : ∀ target temps address,
      Lists (expr.usages (.into target) temps address) address
        (expr.lower (.into target) temps).code) :
    expr.ListsUsages := by
  intro destination temps address
  cases destination with
  | into target =>
      exact lists target temps address
  | anywhere =>
      by_cases atom : expr.IsAtom
      · cases expr with
        | atom truth text =>
            rw [lower_anywhere_atom, usages]
            exact Lists.idle (by simp)
        | binary | call | load =>
            exact atom.elim
      · rw [usages_anywhere_eq_into atom, lower_anywhere_eq_into atom]
        exact lists _ _ _

end Expr

theorem Usage.lists_inner
    {usage : Usage} (first : usage.first.ListsUsages)
    (second : usage.second.ListsUsages) :
    Lists usage.inner usage.address (usage.early.code ++ usage.late.code) :=
  (first .anywhere usage.temps usage.address).append
    (second .anywhere usage.early.temps usage.middle)

theorem Usage.lists_code
    {usage : Usage} (first : usage.first.ListsUsages)
    (second : usage.second.ListsUsages) :
    Lists (usage.inner ++ [usage]) usage.address usage.code := by
  have last :
      usage.last =
        usage.address + (usage.early.code ++ usage.late.code).length := by
    simp only [Usage.last, middle, List.length_append, Nat.add_assoc]
  rw [code, ← List.append_assoc]
  exact (lists_inner first second).append (Lists.single last)

namespace Expr

theorem not_joins_of_mem_storing
    {target : Operand} {instruction other : Instruction}
    (idle : ¬ instruction.Joins)
    (member : other ∈ storing target instruction) :
    ¬ other.Joins := by
  unfold storing at member
  by_cases discarded : target = .discard
  · rw [if_pos discarded] at member
    cases member
  · rw [if_neg discarded, List.mem_singleton] at member
    rwa [member]

theorem lists_argumentUsages
    {args : List Expr} (lists : ∀ arg ∈ args, arg.ListsUsages)
    (temps address : Nat) :
    Lists (argumentUsages temps address args) address
      (lowerArguments temps args).code := by
  induction args generalizing temps address with
  | nil =>
      exact Lists.idle (by simp [lowerArguments])
  | cons argument others inductionHypothesis =>
      rw [List.forall_mem_cons] at lists
      simp only [lowerArguments, argumentUsages]
      exact
        (lists.1 _ _ _).append (inductionHypothesis lists.2 _ _)

theorem listsUsages (expr : Expr) : expr.ListsUsages := by
  induction expr with
  | atom truth text =>
      refine listsUsages_of_into fun target temps address => ?_
      rw [usages, lower_into_atom]
      refine Lists.idle ?_
      intro instruction
      exact not_joins_of_mem_storing id
  | binary truth operator lhs rhs lhsLists rhsLists =>
      refine listsUsages_of_into fun target temps address => ?_
      let whole : Usage := ⟨.apply operator target, lhs, rhs, temps, address⟩
      rw [usages_into_binary, lower_into_binary]
      dsimp only [storing, Usage.storing]
      by_cases discarded : target = .discard
      · rw [if_pos discarded, if_pos discarded, List.append_nil,
          List.append_nil]
        exact whole.lists_inner lhsLists rhsLists
      · rw [if_neg discarded, if_neg discarded]
        exact whole.lists_code lhsLists rhsLists
  | call truth callee args argsList =>
      refine listsUsages_of_into fun target temps address => ?_
      rw [usages, lower_into_call]
      refine (lists_argumentUsages argsList temps address).append_idle ?_
      simp only [List.forall_mem_append]
      refine ⟨?_, ?_, ?_⟩
      · intro instruction member
        obtain ⟨index, bound, rfl⟩ := List.mem_iff_getElem.mp member
        simp [Callee.passArguments, Instruction.Joins]
      · simp [Callee.enter, Instruction.Joins]
      · intro instruction
        exact not_joins_of_mem_storing id
  | load truth cell index indexLists =>
      refine listsUsages_of_into fun target temps address => ?_
      rw [usages, lower_into_load]
      refine (indexLists .anywhere temps address).append_idle ?_
      intro instruction
      exact not_joins_of_mem_storing id

theorem lists_conditionUsages
    (expr : Expr) (label : Label) (temps address : Nat) :
    Lists (expr.conditionUsages label temps address) address
      (expr.lowerCondition label true temps).1 := by
  have computed (other : Operand) :
      Lists (expr.usages .anywhere temps address) address
        ((expr.lower .anywhere temps).code ++
          [.jump label (.compare .equal other (.word "0"))]) := by
    refine (expr.listsUsages .anywhere temps address).append_idle ?_
    simp [Instruction.Joins]
  cases expr with
  | atom | call | load =>
      exact computed _
  | binary truth operator lhs rhs =>
      cases comparison : (Expr.binary truth operator lhs rhs).comparison? with
      | none =>
          simp only [conditionUsages, lowerCondition, comparison]
          exact computed _
      | some tested =>
          simp only [conditionUsages, lowerCondition, comparison]
          let whole : Usage :=
            ⟨.branch label (tested.complement?.getD tested), lhs, rhs, temps,
              address⟩
          exact whole.lists_code lhs.listsUsages rhs.listsUsages

end Expr

/-! ## Code of statements and programs -/

namespace Stmt

mutual

theorem lists_usages :
    ∀ (stmt : Stmt) (supply : Supply) (address : Nat),
      Lists (stmt.usages supply address) address
        (instructions (stmt.lower supply).1)
  | .assign target value, supply, address => by
      rw [usages, lower_assign, instructions_emitAll]
      exact value.listsUsages _ _ _
  | .store cell index value, supply, address => by
      let whole : Usage := ⟨.write cell, value, index, supply.temps, address⟩
      rw [usages, lower_store, instructions_emitAll]
      exact whole.lists_code value.listsUsages index.listsUsages
  | .ifThen condition thenBranch, supply, address => by
      have test :=
        condition.lists_conditionUsages ⟨supply.labels⟩ supply.temps address
      have branch :=
        lists_usages thenBranch
          ⟨supply.labels + 1,
            (condition.lowerCondition ⟨supply.labels⟩ true supply.temps).2⟩
          (address +
            (condition.lowerCondition ⟨supply.labels⟩ true
              supply.temps).1.length)
      rw [usages, lower_ifThen]
      simp only [List.singleton_append, instructions_create,
        instructions_append, instructions_emitAll, instructions_place,
        instructions_nil, List.append_nil]
      exact test.append branch
  | .ifElse condition thenBranch elseBranch, supply, address => by
      have test :=
        condition.lists_conditionUsages ⟨supply.labels⟩ supply.temps address
      let tested := condition.lowerCondition ⟨supply.labels⟩ true supply.temps
      let first := thenBranch.lower ⟨supply.labels + 2, tested.2⟩
      have thenLists :=
        lists_usages thenBranch ⟨supply.labels + 2, tested.2⟩
          (address + tested.1.length)
      have elseLists :=
        lists_usages elseBranch first.2
          (address + tested.1.length + width first.1 + 1)
      rw [usages, lower_ifElse]
      simp only [List.cons_append, List.nil_append, instructions_create,
        instructions_append, instructions_emitAll, instructions_emit,
        instructions_place, instructions_nil, List.append_nil]
      refine test.append (thenLists.append ?_)
      have jump :
          Lists [] (address + tested.1.length + width first.1)
            [.jump ⟨supply.labels + 1⟩ .always] :=
        Lists.idle (by simp [Instruction.Joins])
      exact jump.append elseLists
  | .loop home exit condition body, supply, address => by
      have test :=
        condition.lists_conditionUsages exit supply.temps address
      have repeated :=
        lists_usages body
          { supply with
            temps := (condition.lowerCondition exit true supply.temps).2 }
          (address +
            (condition.lowerCondition exit true supply.temps).1.length)
      rw [usages, lower_loop]
      simp only [List.singleton_append, instructions_append,
        instructions_emitAll, instructions_emit, instructions_place,
        instructions_nil]
      exact
        test.append (repeated.append_idle (by simp [Instruction.Joins]))
  | .ret function none, supply, address => by
      rw [usages, lower_ret, instructions_emitAll]
      exact Lists.idle (by simp [lowerResult, Instruction.Joins])
  | .ret function (some value), supply, address => by
      rw [usages, lower_ret, instructions_emitAll]
      exact
        (value.listsUsages _ _ _).append_idle (by simp [Instruction.Joins])
  | .block body, supply, address => by
      rw [usages, lower_block]
      exact lists_usagesAll body supply address
  | .jump _, supply, address => by
      rw [usages, lower_jump]
      exact Lists.idle (by simp [Instruction.Joins])
  | .raw _, supply, address => by
      rw [usages, lower_raw]
      exact Lists.idle (by simp [Instruction.Joins])
  | .empty, supply, address => by
      rw [usages, lower_empty]
      exact Lists.idle (by simp)

theorem lists_usagesAll :
    ∀ (body : List Stmt) (supply : Supply) (address : Nat),
      Lists (usagesAll supply address body) address
        (instructions (lowerAll supply body).1)
  | [], supply, address => by
      rw [usagesAll, lowerAll_nil]
      exact Lists.idle (by simp)
  | first :: others, supply, address => by
      rw [usagesAll, lowerAll_cons, instructions_append]
      exact
        (lists_usages first supply address).append
          (lists_usagesAll others _ _)

end

end Stmt

theorem Function.lists_usages
    (earlier : List Function) (address : Nat) (supply : Supply)
    (functions : List Function) :
    Lists ((blocks earlier address supply functions).flatMap Block.usages)
      address (instructions (lowerAll supply functions).1) := by
  induction functions generalizing earlier address supply with
  | nil =>
      exact Lists.idle (by simp [lowerAll_nil])
  | cons first others inductionHypothesis =>
      rw [blocks, List.flatMap_cons, lowerAll_cons, instructions_append]
      exact
        (Stmt.lists_usagesAll first.body supply address).append
          (inductionHypothesis _ _ _)

namespace Program

theorem lists_usages (program : Program) :
    Lists program.usages 0 (instructions program.lower) := by
  have main :=
    Stmt.lists_usagesAll program.main ⟨program.labels.created, 0⟩ 0
  rw [lower_eq_append, instructions_append]
  by_cases none : program.functions = []
  · have nothing : instructions program.functionCode = [] := by
      rw [functionCode, if_pos none, instructions_nil]
    have empty : program.usages =
        Stmt.usagesAll ⟨program.labels.created, 0⟩ 0 program.main := by
      rw [usages, blocks, none, Function.blocks, List.flatMap_nil,
        List.append_nil]
    rw [nothing, List.append_nil, empty]
    exact main
  · rw [functionCode_of_ne_nil none, instructions_emit, usages]
    have halt : Lists [] program.mainWidth [.halt] :=
      Lists.idle (by simp [Instruction.Joins])
    have functions :=
      Function.lists_usages [] (program.mainWidth + 1) program.mainCode.2
        program.functions
    have behind :
        Lists (program.blocks.flatMap Block.usages) (0 + program.mainWidth)
          (.halt ::
            instructions
              (Function.lowerAll program.mainCode.2 program.functions).1) := by
      rw [Nat.zero_add]
      exact halt.append functions
    exact main.append behind

/-- Every instruction in the code of a program that uses two operands of the source
is the last one of a usage. -/
theorem exists_usage_of_joins
    {program : Program} {emitted : Assembly}
    (assembled :
      Assembly.ofEntries program.labels program.lower = .ok emitted)
    {address : Nat} {instruction : Instruction}
    (here : emitted.guarded.code[address]? = some instruction)
    (joins : instruction.Joins) :
    ∃ usage ∈ program.usages, usage.last = address := by
  have other : instruction ≠ .noop := by
    rintro rfl
    exact joins
  rw [getElem?_guarded assembled other] at here
  have listed := program.lists_usages address instruction here joins
  rwa [Nat.zero_add] at listed

end Program

end FlatCode
