import FlatCode.Proofs.Lowering.Program
import FlatCode.Proofs.Reading.Word

/-!
# Where two operands are used

An operation, an assignment to a memory cell and a comparison that decides a jump
have two operands.  Their code computes the first one, then the second one, and ends
with one instruction that uses both: a `Usage`.

The usages of a program are listed along its code, with the address and the number of
temporaries in use at each of them.  Every usage lies in the code of the statement it
was listed for: `Usage.Lies`.
-/

namespace FlatCode

open Entry
open Program (plainParts)

inductive Usage.Kind where
  | apply (operator : Operator) (target : Operand)
  | write (cell : String)
  | branch (label : Label) (operator : Operator)
  deriving DecidableEq, Repr

def Usage.Kind.instruction (first second : Operand) : Usage.Kind → Instruction
  | .apply operator target => .op operator target first second
  | .write cell => .write first (.word cell) second
  | .branch label operator => .jump label (.compare operator first second)

/-- Two operands in the order of their evaluation, with the address of the first
instruction of their code and the number of temporaries in use before it. -/
structure Usage where
  kind : Usage.Kind
  first : Expr
  second : Expr
  temps : Nat
  address : Nat
  deriving DecidableEq, Repr

namespace Usage

def early (usage : Usage) : Computed :=
  usage.first.lower .anywhere usage.temps

def late (usage : Usage) : Computed :=
  usage.second.lower .anywhere usage.early.temps

def middle (usage : Usage) : Nat :=
  usage.address + usage.early.code.length

def last (usage : Usage) : Nat :=
  usage.middle + usage.late.code.length

def instruction (usage : Usage) : Instruction :=
  usage.kind.instruction usage.early.operand usage.late.operand

def code (usage : Usage) : List Instruction :=
  usage.early.code ++ (usage.late.code ++ [usage.instruction])

theorem address_le_last (usage : Usage) : usage.address ≤ usage.last := by
  simp only [last, middle]
  omega

theorem length_code (usage : Usage) :
    usage.address + usage.code.length = usage.last + 1 := by
  simp only [code, last, middle, List.length_append, List.length_singleton]
  omega

/-- A usage by an instruction that stores into `target`, left out for the variable
that is never written. -/
def storing (target : Operand) (usage : Usage) : List Usage :=
  if target = .discard then [] else [usage]

end Usage

/-! ## The usages of a tree -/

namespace Expr

mutual

/-- The usages in the code of an expression. -/
def usages (destination : Destination) (temps address : Nat) :
    Expr → List Usage
  | .atom _ _ => []
  | .binary _ operator lhs rhs =>
      let (target, taken) := destination.take temps
      let left := lhs.lower .anywhere taken
      lhs.usages .anywhere taken address ++
        (rhs.usages .anywhere left.temps (address + left.code.length) ++
          Usage.storing target ⟨.apply operator target, lhs, rhs, taken, address⟩)
  | .call _ _ args => argumentUsages (destination.take temps).2 address args
  | .load _ _ index =>
      index.usages .anywhere (destination.take temps).2 address

def argumentUsages (temps address : Nat) : List Expr → List Usage
  | [] => []
  | argument :: others =>
      let first := argument.lower (.into (.temp (temps + 1))) (temps + 1)
      argument.usages (.into (.temp (temps + 1))) (temps + 1) address ++
        argumentUsages first.temps (address + first.code.length) others

end

end Expr

/-- The usages in the code of the operands. -/
def Usage.inner (usage : Usage) : List Usage :=
  usage.first.usages .anywhere usage.temps usage.address ++
    usage.second.usages .anywhere usage.early.temps usage.middle

/-- The usages in the code of a condition that jumps to a label if it does not
hold. -/
def Expr.conditionUsages
    (label : Label) (temps address : Nat) (expr : Expr) : List Usage :=
  match expr, expr.comparison? with
  | .binary _ _ lhs rhs, some operator =>
      let other := operator.complement?.getD operator
      let usage : Usage := ⟨.branch label other, lhs, rhs, temps, address⟩
      usage.inner ++ [usage]
  | expr, _ => expr.usages .anywhere temps address

namespace Stmt

mutual

def usages (supply : Supply) (address : Nat) : Stmt → List Usage
  | .assign target value =>
      value.usages (.into (.word target)) supply.temps address
  | .store cell index value =>
      let usage : Usage := ⟨.write cell, value, index, supply.temps, address⟩
      usage.inner ++ [usage]
  | .ifThen condition thenBranch =>
      let exit : Label := ⟨supply.labels⟩
      let test := condition.lowerCondition exit true supply.temps
      condition.conditionUsages exit supply.temps address ++
        thenBranch.usages ⟨supply.labels + 1, test.2⟩ (address + test.1.length)
  | .ifElse condition thenBranch elseBranch =>
      let otherwise : Label := ⟨supply.labels⟩
      let test := condition.lowerCondition otherwise true supply.temps
      let first := thenBranch.lower ⟨supply.labels + 2, test.2⟩
      let branch := address + test.1.length
      condition.conditionUsages otherwise supply.temps address ++
        (thenBranch.usages ⟨supply.labels + 2, test.2⟩ branch ++
          elseBranch.usages first.2 (branch + width first.1 + 1))
  | .loop _ exit condition body =>
      let test := condition.lowerCondition exit true supply.temps
      condition.conditionUsages exit supply.temps address ++
        body.usages { supply with temps := test.2 } (address + test.1.length)
  | .ret function (some value) =>
      value.usages (.into (.result function)) supply.temps address
  | .block body => usagesAll supply address body
  | .ret _ none | .jump _ | .raw _ | .empty => []

def usagesAll (supply : Supply) (address : Nat) : List Stmt → List Usage
  | [] => []
  | first :: others =>
      let code := first.lower supply
      first.usages supply address ++
        usagesAll code.2 (address + width code.1) others

end

end Stmt

def Block.usages (block : Block) : List Usage :=
  Stmt.usagesAll block.supply block.address block.function.body

def Program.usages (program : Program) : List Usage :=
  Stmt.usagesAll ⟨program.labels.created, 0⟩ 0 program.main ++
    program.blocks.flatMap Block.usages

/-! ## Where usages lie -/

/-- The code of a usage stands in an assembly between two addresses, with temporaries
between two numbers, and its operands are plain. -/
structure Usage.Lies
    (assembly : Assembly) (callees : List Callee)
    (low high start finish : Nat) (usage : Usage) : Prop where
  first : usage.first.Plain callees
  second : usage.second.Plain callees
  carried : assembly.Carries usage.address (emitAll usage.code)
  above : low ≤ usage.temps
  below : usage.late.temps ≤ high
  behind : start ≤ usage.address
  before : usage.last < finish

section Lies

variable {assembly : Assembly} {callees : List Callee}

theorem Usage.Lies.widen
    {low high start finish bottom top outset limit : Nat} {usage : Usage}
    (lies : usage.Lies assembly callees low high start finish)
    (lower : bottom ≤ low) (upper : high ≤ top)
    (outer : outset ≤ start) (further : finish ≤ limit) :
    usage.Lies assembly callees bottom top outset limit where
  first := lies.first
  second := lies.second
  carried := lies.carried
  above := Nat.le_trans lower lies.above
  below := Nat.le_trans lies.below upper
  behind := Nat.le_trans outer lies.behind
  before := Nat.lt_of_lt_of_le lies.before further

namespace Expr

def UsagesLie
    (assembly : Assembly) (callees : List Callee) (expr : Expr) : Prop :=
  ∀ destination temps address,
    assembly.Carries address (emitAll (expr.lower destination temps).code) →
      ∀ usage ∈ expr.usages destination temps address,
        usage.Lies assembly callees temps (expr.lower destination temps).temps
          address (address + (expr.lower destination temps).code.length)

theorem usages_anywhere_eq_into
    {expr : Expr} (computed : ¬ expr.IsAtom) (temps address : Nat) :
    expr.usages .anywhere temps address =
      expr.usages (.into (.temp (temps + 1))) (temps + 1) address := by
  cases expr with
  | atom truth text =>
      exact absurd trivial computed
  | binary | call | load =>
      simp only [usages, Destination.take]

theorem usages_into_binary
    (target : Operand) (temps address : Nat) (truth : Truth)
    (operator : Operator) (lhs rhs : Expr) :
    (Expr.binary truth operator lhs rhs).usages (.into target) temps address =
      let usage : Usage := ⟨.apply operator target, lhs, rhs, temps, address⟩
      usage.inner ++ usage.storing target := by
  simp only [usages, Usage.inner, Destination.take, List.append_assoc]
  rfl

theorem usagesLie_of_into
    {expr : Expr}
    (lie : ∀ target temps address,
      assembly.Carries address
          (emitAll (expr.lower (.into target) temps).code) →
        ∀ usage ∈ expr.usages (.into target) temps address,
          usage.Lies assembly callees temps
            (expr.lower (.into target) temps).temps address
            (address + (expr.lower (.into target) temps).code.length)) :
    expr.UsagesLie assembly callees := by
  intro destination temps address carries usage member
  cases destination with
  | into target =>
      exact lie target temps address carries usage member
  | anywhere =>
      by_cases atom : expr.IsAtom
      · cases expr with
        | atom truth text =>
            rw [usages] at member
            cases member
        | binary | call | load =>
            exact atom.elim
      · rw [usages_anywhere_eq_into atom] at member
        rw [lower_anywhere_eq_into atom] at carries ⊢
        exact
          (lie _ _ _ carries usage member).widen (Nat.le_succ temps)
            (Nat.le_refl _) (Nat.le_refl _) (Nat.le_refl _)

end Expr

/-- A usage and those in its operands lie where its own code does. -/
theorem Usage.lies_of_mem_inner
    {usage : Usage} (firstLie : usage.first.UsagesLie assembly callees)
    (secondLie : usage.second.UsagesLie assembly callees)
    (firstCarried : assembly.Carries usage.address (emitAll usage.early.code))
    (secondCarried : assembly.Carries usage.middle (emitAll usage.late.code)) :
    ∀ other ∈ usage.inner,
      other.Lies assembly callees usage.temps usage.late.temps usage.address
        usage.last := by
  have earlyTemps : usage.temps ≤ usage.early.temps :=
    Expr.temps_le_lower usage.first .anywhere usage.temps
  have lateTemps : usage.early.temps ≤ usage.late.temps :=
    Expr.temps_le_lower usage.second .anywhere usage.early.temps
  intro other member
  rcases List.mem_append.mp member with inFirst | inSecond
  · have lies := firstLie _ _ _ firstCarried other inFirst
    exact
      lies.widen (Nat.le_refl _) lateTemps (Nat.le_refl _)
        (Nat.le_add_right _ _)
  · have lies := secondLie _ _ _ secondCarried other inSecond
    exact
      lies.widen earlyTemps (Nat.le_refl _) (Nat.le_add_right _ _)
        (Nat.le_refl _)

theorem Usage.lies_self
    {usage : Usage} (firstPlain : usage.first.Plain callees)
    (secondPlain : usage.second.Plain callees)
    (carried : assembly.Carries usage.address (emitAll usage.code)) :
    usage.Lies assembly callees usage.temps usage.late.temps usage.address
      (usage.address + usage.code.length) := by
  refine
    ⟨firstPlain, secondPlain, carried, Nat.le_refl _, Nat.le_refl _,
      Nat.le_refl _, ?_⟩
  rw [usage.length_code]
  exact Nat.lt_succ_self usage.last

theorem Usage.lies_of_mem
    {usage : Usage} (firstLie : usage.first.UsagesLie assembly callees)
    (secondLie : usage.second.UsagesLie assembly callees)
    (firstPlain : usage.first.Plain callees)
    (secondPlain : usage.second.Plain callees)
    (carried : assembly.Carries usage.address (emitAll usage.code)) :
    ∀ other ∈ usage.inner ++ [usage],
      other.Lies assembly callees usage.temps usage.late.temps usage.address
        (usage.address + usage.code.length) := by
  have parts := carried
  rw [code, Assembly.carries_emitAll_append,
    Assembly.carries_emitAll_append] at parts
  intro other member
  rcases List.mem_append.mp member with inside | same
  · have lies :=
      lies_of_mem_inner firstLie secondLie parts.1 parts.2.1 other inside
    refine
      lies.widen (Nat.le_refl _) (Nat.le_refl _) (Nat.le_refl _) ?_
    rw [usage.length_code]
    exact Nat.le_succ usage.last
  · obtain rfl := List.mem_singleton.mp same
    exact lies_self firstPlain secondPlain carried

namespace Expr

theorem lies_of_mem_argumentUsages
    {args : List Expr} (lie : ∀ arg ∈ args, arg.UsagesLie assembly callees)
    {temps address : Nat}
    (carries :
      assembly.Carries address (emitAll (lowerArguments temps args).code)) :
    ∀ usage ∈ argumentUsages temps address args,
      usage.Lies assembly callees temps (lowerArguments temps args).temps
        address (address + (lowerArguments temps args).code.length) := by
  induction args generalizing temps address with
  | nil =>
      simp [argumentUsages]
  | cons argument others inductionHypothesis =>
      rw [List.forall_mem_cons] at lie
      simp only [lowerArguments, argumentUsages, List.length_append] at carries ⊢
      rw [Assembly.carries_emitAll_append] at carries
      have taken := temps_le_into argument (.temp (temps + 1)) (temps + 1)
      have later :=
        temps_le_lowerArguments
          (argument.lower (.into (.temp (temps + 1))) (temps + 1)).temps
          fun arg (_ : arg ∈ others) => temps_le_into arg
      intro usage member
      rcases List.mem_append.mp member with inFirst | inOthers
      · have lies := lie.1 _ _ _ carries.1 usage inFirst
        exact
          lies.widen (Nat.le_succ temps) later (Nat.le_refl _) (by omega)
      · have lies := inductionHypothesis lie.2 carries.2 usage inOthers
        exact
          lies.widen (by omega) (Nat.le_refl _) (Nat.le_add_right _ _)
            (by omega)

theorem usagesLie {expr : Expr} (plain : expr.Plain callees) :
    expr.UsagesLie assembly callees := by
  induction expr with
  | atom truth text =>
      refine usagesLie_of_into ?_
      intro target temps address carries usage member
      rw [usages] at member
      cases member
  | binary truth operator lhs rhs lhsLie rhsLie =>
      refine usagesLie_of_into ?_
      intro target temps address carries usage member
      let whole : Usage := ⟨.apply operator target, lhs, rhs, temps, address⟩
      have leftLie : whole.first.UsagesLie assembly callees := lhsLie plain.left
      have rightLie : whole.second.UsagesLie assembly callees :=
        rhsLie plain.right
      rw [usages_into_binary] at member
      rw [lower_into_binary] at carries ⊢
      dsimp only [storing, Usage.storing] at member carries ⊢
      by_cases discarded : target = .discard
      · rw [if_pos discarded, List.append_nil] at member carries
        rw [Assembly.carries_emitAll_append] at carries
        have lies :=
          Usage.lies_of_mem_inner leftLie rightLie carries.1 carries.2 usage
            member
        refine
          lies.widen (Nat.le_refl _) (Nat.le_refl _) (Nat.le_refl _) ?_
        rw [if_pos discarded, List.append_nil, List.length_append,
          ← Nat.add_assoc]
        exact Nat.le_refl _
      · rw [if_neg discarded] at member carries ⊢
        exact
          Usage.lies_of_mem leftLie rightLie plain.left plain.right carries usage
            member
  | call truth callee args argsLie =>
      refine usagesLie_of_into ?_
      intro target temps address carries usage member
      rw [usages] at member
      rw [lower_into_call] at carries ⊢
      dsimp only at carries ⊢
      rw [Assembly.carries_emitAll_append] at carries
      have lies :=
        lies_of_mem_argumentUsages
          (fun arg argMember => argsLie arg argMember (plain.argument argMember))
          carries.1 usage member
      refine
        lies.widen (Nat.le_refl _) (Nat.le_refl _) (Nat.le_refl _) ?_
      rw [List.length_append]
      omega
  | load truth cell index indexLie =>
      refine usagesLie_of_into ?_
      intro target temps address carries usage member
      rw [usages] at member
      rw [lower_into_load] at carries ⊢
      dsimp only at carries ⊢
      rw [Assembly.carries_emitAll_append] at carries
      have lies := indexLie plain.index _ _ _ carries.1 usage member
      refine
        lies.widen (Nat.le_refl _) (Nat.le_refl _) (Nat.le_refl _) ?_
      rw [List.length_append]
      omega

theorem lies_of_mem_conditionUsages
    {expr : Expr} (plain : expr.Plain callees) {label : Label}
    {temps address : Nat}
    (carries :
      assembly.Carries address
        (emitAll (expr.lowerCondition label true temps).1)) :
    ∀ usage ∈ expr.conditionUsages label temps address,
      usage.Lies assembly callees temps
        (expr.lowerCondition label true temps).2 address
        (address + (expr.lowerCondition label true temps).1.length) := by
  -- A condition that is not tested by the jump itself is computed like any value.
  have computed (jump : Instruction)
      (carried :
        assembly.Carries address
          (emitAll ((expr.lower .anywhere temps).code ++ [jump]))) :
      ∀ usage ∈ expr.usages .anywhere temps address,
        usage.Lies assembly callees temps (expr.lower .anywhere temps).temps
          address
          (address + ((expr.lower .anywhere temps).code ++ [jump]).length) := by
    rw [Assembly.carries_emitAll_append] at carried
    intro usage member
    have lies := usagesLie plain _ _ _ carried.1 usage member
    refine lies.widen (Nat.le_refl _) (Nat.le_refl _) (Nat.le_refl _) ?_
    rw [List.length_append]
    omega
  cases expr with
  | atom | call | load =>
      exact computed _ carries
  | binary truth operator lhs rhs =>
      cases comparison : (Expr.binary truth operator lhs rhs).comparison? with
      | none =>
          simp only [conditionUsages, lowerCondition, comparison] at carries ⊢
          exact computed _ carries
      | some tested =>
          simp only [conditionUsages, lowerCondition, comparison] at carries ⊢
          let whole : Usage :=
            ⟨.branch label (tested.complement?.getD tested), lhs, rhs, temps,
              address⟩
          exact
            whole.lies_of_mem (usagesLie plain.left) (usagesLie plain.right)
              plain.left plain.right carries

end Expr

namespace Stmt

def UsagesLie
    (assembly : Assembly) (callees : List Callee) (stmt : Stmt) : Prop :=
  ∀ supply address,
    assembly.Carries address (stmt.lower supply).1 →
      ∀ usage ∈ stmt.usages supply address,
        usage.Lies assembly callees supply.temps (stmt.lower supply).2.temps
          address (address + width (stmt.lower supply).1)

def UsagesLieAll
    (assembly : Assembly) (callees : List Callee) (body : List Stmt) : Prop :=
  ∀ supply address,
    assembly.Carries address (lowerAll supply body).1 →
      ∀ usage ∈ usagesAll supply address body,
        usage.Lies assembly callees supply.temps
          (lowerAll supply body).2.temps address
          (address + width (lowerAll supply body).1)

theorem usagesLie_assign
    {target : String} {value : Expr} (plain : value.Plain callees) :
    (Stmt.assign target value).UsagesLie assembly callees := by
  intro supply address carries
  rw [lower_assign] at carries ⊢
  rw [width_emitAll]
  exact Expr.usagesLie plain _ _ _ carries

theorem usagesLie_store
    {cell : String} {index value : Expr} (indexPlain : index.Plain callees)
    (valuePlain : value.Plain callees) :
    (Stmt.store cell index value).UsagesLie assembly callees := by
  intro supply address carries
  let whole : Usage := ⟨.write cell, value, index, supply.temps, address⟩
  rw [lower_store] at carries ⊢
  rw [width_emitAll]
  exact
    whole.lies_of_mem (Expr.usagesLie valuePlain) (Expr.usagesLie indexPlain)
      valuePlain indexPlain carries

theorem usagesLie_ifThen
    {condition : Expr} {thenBranch : Stmt} (plain : condition.Plain callees)
    (thenLie : thenBranch.UsagesLie assembly callees) :
    (Stmt.ifThen condition thenBranch).UsagesLie assembly callees := by
  intro supply address carries
  obtain ⟨branch, behind, rfl, rfl, ended, testCarried, branchCarried, _⟩ :=
    carries_ifThen carries
  have tested :=
    Expr.temps_le_lowerCondition condition ⟨supply.labels⟩ true supply.temps
  have branched :=
    temps_le_lower thenBranch
      ⟨supply.labels + 1,
        (condition.lowerCondition ⟨supply.labels⟩ true supply.temps).2⟩
  rw [ended, lower_ifThen]
  intro usage member
  rw [usages, List.mem_append] at member
  rcases member with inTest | inBranch
  · have lies :=
      Expr.lies_of_mem_conditionUsages plain testCarried usage inTest
    exact
      lies.widen (Nat.le_refl _) branched (Nat.le_refl _)
        (Nat.le_add_right _ _)
  · have lies := thenLie _ _ branchCarried usage inBranch
    exact
      lies.widen tested (Nat.le_refl _) (Nat.le_add_right _ _)
        (Nat.le_refl _)

theorem usagesLie_ifElse
    {condition : Expr} {thenBranch elseBranch : Stmt}
    (plain : condition.Plain callees)
    (thenLie : thenBranch.UsagesLie assembly callees)
    (elseLie : elseBranch.UsagesLie assembly callees) :
    (Stmt.ifElse condition thenBranch elseBranch).UsagesLie assembly
      callees := by
  intro supply address carries
  obtain
    ⟨branch, between, behind, rfl, rfl, rfl, ended, testCarried,
      thenCarried, _, _, elseCarried, _⟩ := carries_ifElse carries
  have tested :=
    Expr.temps_le_lowerCondition condition ⟨supply.labels⟩ true supply.temps
  have branched :=
    temps_le_lower thenBranch
      ⟨supply.labels + 2,
        (condition.lowerCondition ⟨supply.labels⟩ true supply.temps).2⟩
  have finished :=
    temps_le_lower elseBranch
      (thenBranch.lower
        ⟨supply.labels + 2,
          (condition.lowerCondition ⟨supply.labels⟩ true
            supply.temps).2⟩).2
  rw [ended, lower_ifElse]
  intro usage member
  rw [usages, List.mem_append, List.mem_append] at member
  rcases member with inTest | inThen | inElse
  · have lies :=
      Expr.lies_of_mem_conditionUsages plain testCarried usage inTest
    exact
      lies.widen (Nat.le_refl _) (Nat.le_trans branched finished)
        (Nat.le_refl _) (by omega)
  · have lies := thenLie _ _ thenCarried usage inThen
    exact lies.widen tested finished (Nat.le_add_right _ _) (by omega)
  · have lies := elseLie _ _ elseCarried usage inElse
    exact
      lies.widen (Nat.le_trans tested branched) (Nat.le_refl _) (by omega)
        (Nat.le_refl _)

theorem usagesLie_loop
    {home exit : Label} {condition : Expr} {body : Stmt}
    (plain : condition.Plain callees)
    (bodyLie : body.UsagesLie assembly callees) :
    (Stmt.loop home exit condition body).UsagesLie assembly callees := by
  intro supply address carries
  obtain
    ⟨inside, back, rfl, rfl, ended, _, testCarried, bodyCarried, _, _⟩ :=
    carries_loop carries
  have tested :=
    Expr.temps_le_lowerCondition condition exit true supply.temps
  have repeated :=
    temps_le_lower body
      { supply with
        temps := (condition.lowerCondition exit true supply.temps).2 }
  rw [ended, lower_loop]
  intro usage member
  rw [usages, List.mem_append] at member
  rcases member with inTest | inBody
  · have lies :=
      Expr.lies_of_mem_conditionUsages plain testCarried usage inTest
    exact lies.widen (Nat.le_refl _) repeated (Nat.le_refl _) (by omega)
  · have lies := bodyLie _ _ bodyCarried usage inBody
    exact
      lies.widen tested (Nat.le_refl _) (Nat.le_add_right _ _) (by omega)

theorem usagesLie_ret
    {name : String} {value : Option Expr}
    (plain : ∀ result ∈ value, result.Plain callees) :
    (Stmt.ret name value).UsagesLie assembly callees := by
  intro supply address carries
  cases value with
  | none =>
      simp [usages]
  | some value =>
      obtain ⟨last, rfl, ended, valueCarried, _⟩ := carries_ret carries
      rw [ended, lower_ret]
      intro usage member
      rw [usages] at member
      have lies :=
        Expr.usagesLie (plain value rfl) _ _ _ valueCarried usage member
      exact
        lies.widen (Nat.le_refl _) (Nat.le_refl _) (Nat.le_refl _)
          (Nat.le_succ _)

/-- A statement without expressions has no usages. -/
theorem usagesLie_of_nil
    {stmt : Stmt} (nothing : ∀ supply address, stmt.usages supply address = []) :
    stmt.UsagesLie assembly callees := by
  intro supply address _ usage member
  rw [nothing] at member
  cases member

theorem usagesLie_block
    {body : List Stmt} (bodyLie : UsagesLieAll assembly callees body) :
    (Stmt.block body).UsagesLie assembly callees := by
  intro supply address
  rw [lower_block, usages]
  exact bodyLie supply address

theorem usagesLieAll_nil : UsagesLieAll assembly callees [] := by
  intro supply address _
  simp [usagesAll]

theorem usagesLieAll_cons
    {first : Stmt} {others : List Stmt}
    (firstLie : first.UsagesLie assembly callees)
    (othersLie : UsagesLieAll assembly callees others) :
    UsagesLieAll assembly callees (first :: others) := by
  intro supply address carries
  obtain ⟨middle, rfl, ended, firstCarried, othersCarried⟩ :=
    carries_cons carries
  have taken := temps_le_lower first supply
  have later := temps_le_lowerAll others (first.lower supply).2
  rw [ended, lowerAll_cons]
  intro usage member
  rw [usagesAll, List.mem_append] at member
  rcases member with inFirst | inOthers
  · have lies := firstLie supply address firstCarried usage inFirst
    exact
      lies.widen (Nat.le_refl _) later (Nat.le_refl _)
        (Nat.le_add_right _ _)
  · have lies := othersLie _ _ othersCarried usage inOthers
    exact
      lies.widen taken (Nat.le_refl _) (Nat.le_add_right _ _)
        (Nat.le_refl _)

variable {function : Option String}

mutual

theorem usagesLie :
    ∀ (stmt : Stmt) (around : Option LoopLabels) (created : Nat),
      stmt.Formed (plainParts callees function) around created →
        stmt.UsagesLie assembly callees
  | .assign _ _, _, _, ⟨_, plain⟩ =>
      usagesLie_assign plain
  | .store _ _ _, _, _, ⟨_, indexPlain, valuePlain⟩ =>
      usagesLie_store indexPlain valuePlain
  | .ifThen _ thenBranch, around, created, ⟨plain, formed⟩ =>
      usagesLie_ifThen plain (usagesLie thenBranch around created formed)
  | .ifElse _ thenBranch elseBranch, around, created,
      ⟨plain, thenFormed, elseFormed⟩ =>
      usagesLie_ifElse plain (usagesLie thenBranch around created thenFormed)
        (usagesLie elseBranch around _ elseFormed)
  | .loop _ _ _ body, _, created, ⟨_, _, plain, formed⟩ =>
      usagesLie_loop plain (usagesLie body _ (created + 2) formed)
  | .ret _ _, _, _, ⟨_, plain⟩ =>
      usagesLie_ret plain
  | .block body, around, created, formed =>
      usagesLie_block (usagesLieAll body around created formed)
  | .jump _, _, _, _
  | .raw _, _, _, _
  | .empty, _, _, _ =>
      usagesLie_of_nil fun _ _ => by rw [usages]

theorem usagesLieAll :
    ∀ (body : List Stmt) (around : Option LoopLabels) (created : Nat),
      FormedAll (plainParts callees function) around created body →
        UsagesLieAll assembly callees body
  | [], _, _, _ =>
      usagesLieAll_nil
  | first :: others, around, created, ⟨firstFormed, othersFormed⟩ =>
      usagesLieAll_cons (usagesLie first around created firstFormed)
        (usagesLieAll others around _ othersFormed)

end

end Stmt

end Lies

end FlatCode
