import FlatCode.Proofs.Access.Basic

/-!
# Temporaries are assigned once and used once

Everything that happens to a variable in code is a list of events: an instruction
writes it or reads it, and a label stands between two instructions.  Such lists are
put one behind the other as code is, so what has to be shown of a program is shown
of its parts.

* The code of an expression takes a range of temporaries.  Each of them is written
  and then read once or not at all, and nothing happens to any other.  The
  temporary that holds the value is only written: it is read by the instruction
  that uses the value.
* The code of a statement takes such ranges one behind the other, and between the
  write and the read of a temporary there is no label: `Tidy`.

The numbers of temporaries and the addresses of their writes need not be in the
same order, because the temporary of an operation is taken before those of its
operands.
-/

namespace FlatCode

open Entry

/-- What can happen to a variable. -/
inductive Event where
  /-- A label stands before the next instruction. -/
  | label
  /-- An instruction reads the variable. -/
  | read
  /-- An instruction writes the variable. -/
  | write
  deriving DecidableEq, Repr

/-- What an instruction does to an operand.  It reads before it writes. -/
def Instruction.events (operand : Operand) (instruction : Instruction) :
    List Event :=
  List.replicate (instruction.sources.count operand) .read ++
    if instruction.target? = some operand then [.write] else []

def accesses (operand : Operand) (code : List Instruction) : List Event :=
  code.flatMap (Instruction.events operand)

section Accesses

variable (operand : Operand)

@[simp]
theorem accesses_nil : accesses operand [] = [] := rfl

@[simp]
theorem accesses_append (first second : List Instruction) :
    accesses operand (first ++ second) =
      accesses operand first ++ accesses operand second :=
  List.flatMap_append

theorem accesses_cons (instruction : Instruction) (rest : List Instruction) :
    accesses operand (instruction :: rest) =
      instruction.events operand ++ accesses operand rest := rfl

theorem accesses_singleton (instruction : Instruction) :
    accesses operand [instruction] = instruction.events operand :=
  List.append_nil _

end Accesses

def stores (target : Option Operand) (number : Nat) : List Event :=
  if target = some (.temp number) then [.write] else []

theorem stores_of_lt
    {target : Option Operand} {low number : Nat}
    (bounded : ∀ other, target = some (.temp other) → other ≤ low)
    (above : low < number) :
    stores target number = [] := by
  apply if_neg
  intro same
  have below := bounded number same
  omega

/-! ## Temporaries of expressions -/

/-- Code takes the temporaries above `low` up to `high` and leaves values in
operands: a temporary among the operands is written, and every other one is written
and then read at most once. -/
structure Yields
    (operands : List Operand) (low high : Nat) (code : List Instruction) :
    Prop where
  ordered : low ≤ high
  inside : ∀ number, low < number → number ≤ high →
    accesses (.temp number) code = [.write] ∧
        operands.count (.temp number) ≤ 1 ∨
      accesses (.temp number) code = [.write, .read] ∧
        operands.count (.temp number) = 0
  outside : ∀ number, number ≤ low ∨ high < number →
    accesses (.temp number) code = [] ∧ operands.count (.temp number) = 0

/-- Code takes the temporaries above `low` up to `high`, reads each of them at most
once, and stores into a target. -/
structure Fills
    (target : Option Operand) (low high : Nat) (code : List Instruction) :
    Prop where
  ordered : low ≤ high
  inside : ∀ number, low < number → number ≤ high →
    accesses (.temp number) code = [.write] ∨
      accesses (.temp number) code = [.write, .read]
  outside : ∀ number, number ≤ low ∨ high < number →
    accesses (.temp number) code = stores target number

theorem Fills.forget
    {target : Option Operand} {low high : Nat} {code : List Instruction}
    (fills : Fills target low high code)
    (word : ∀ number, target ≠ some (.temp number)) :
    Fills none low high code := by
  refine ⟨fills.ordered, fills.inside, fun number away => ?_⟩
  rw [fills.outside number away, stores, if_neg (word number)]
  rfl

/-- Code that reads values from operands, each of them at most once, and stores into
a target. -/
def Consumes
    (operands : List Operand) (target : Option Operand)
    (code : List Instruction) : Prop :=
  ∀ number, ∃ count,
    count ≤ operands.count (.temp number) ∧
      accesses (.temp number) code =
        List.replicate count .read ++ stores target number

theorem consumes_singleton
    {operands : List Operand} {instruction : Instruction}
    (read : ∀ number,
      instruction.sources.count (.temp number) ≤
        operands.count (.temp number)) :
    Consumes operands instruction.target? [instruction] := by
  intro number
  refine ⟨instruction.sources.count (.temp number), read number, ?_⟩
  exact accesses_singleton _ instruction

theorem consumes_storing
    {operands : List Operand} {target : Operand} {instruction : Instruction}
    (stored : instruction.target? = some target)
    (read : ∀ number,
      instruction.sources.count (.temp number) ≤
        operands.count (.temp number)) :
    Consumes operands (some target) (storing target instruction) := by
  unfold storing
  by_cases discarded : target = .discard
  · rw [if_pos discarded, discarded]
    intro number
    exact ⟨0, Nat.zero_le _, rfl⟩
  · rw [if_neg discarded, ← stored]
    exact consumes_singleton read

theorem accesses_passArguments
    (callee : Callee) (operands : List Operand) (number : Nat) :
    ∃ count, count ≤ operands.count (.temp number) ∧
      accesses (.temp number) (callee.passArguments operands) =
        List.replicate count .read := by
  unfold Callee.passArguments
  generalize callee.params = params
  induction operands generalizing params with
  | nil =>
      exact ⟨0, Nat.le_refl _, by simp⟩
  | cons first others inductionHypothesis =>
      cases params with
      | nil =>
          exact ⟨0, Nat.zero_le _, by simp⟩
      | cons param params =>
          obtain ⟨count, bounded, shape⟩ := inductionHypothesis params
          have passed :
              Instruction.events (.temp number) (.set (.word param) first) =
                List.replicate ([first].count (.temp number)) .read := by
            simp [Instruction.events, Instruction.target?,
              Instruction.sources]
          refine ⟨[first].count (.temp number) + count, ?_, ?_⟩
          · simp only [List.count_cons, List.count_nil]
            omega
          · rw [List.zipWith_cons_cons, accesses_cons, passed, shape,
              List.replicate_append_replicate]

theorem consumes_call
    (callee : Callee) (operands : List Operand) (target : Operand) :
    Consumes operands (some target)
      (callee.passArguments operands ++
        (callee.enter ++
          storing target (.set target (.result callee.name)))) := by
  intro number
  obtain ⟨count, bounded, passed⟩ :=
    accesses_passArguments callee operands number
  have stored : Consumes [] (some target)
      (storing target (.set target (.result callee.name))) :=
    consumes_storing rfl (by simp [Instruction.sources])
  obtain ⟨none, noneBounded, stored⟩ := stored number
  have entered : accesses (.temp number) callee.enter = [] := by
    simp [accesses, Callee.enter, Instruction.events, Instruction.target?,
      Instruction.sources, Operand.counter]
  refine ⟨count, bounded, ?_⟩
  rw [accesses_append, accesses_append, passed, entered, stored,
    Nat.le_zero.mp noneBounded]
  rfl

namespace Yields

variable {operands first second : List Operand} {low middle high : Nat}
  {code before after : List Instruction}

theorem nil (low : Nat) : Yields [] low low [] :=
  ⟨Nat.le_refl _, fun _ above below => by omega, fun _ _ => ⟨rfl, rfl⟩⟩

theorem word (text : String) (low : Nat) :
    Yields [.word text] low low [] := by
  refine ⟨Nat.le_refl _, fun _ above below => by omega, fun _ _ => ?_⟩
  exact ⟨rfl, by simp⟩

theorem append
    (earlier : Yields first low middle before)
    (later : Yields second middle high after) :
    Yields (first ++ second) low high (before ++ after) := by
  have lowMiddle := earlier.ordered
  have middleHigh := later.ordered
  refine ⟨by omega, ?_, ?_⟩
  · intro number above below
    simp only [accesses_append, List.count_append]
    by_cases within : number ≤ middle
    · obtain ⟨untouched, unused⟩ := later.outside number (Or.inl within)
      rw [untouched, unused, List.append_nil, Nat.add_zero]
      exact earlier.inside number above within
    · obtain ⟨untouched, unused⟩ := earlier.outside number (by omega)
      rw [untouched, unused, List.nil_append, Nat.zero_add]
      exact later.inside number (by omega) below
  · intro number away
    obtain ⟨untouched, unused⟩ := earlier.outside number (by omega)
    obtain ⟨alsoUntouched, alsoUnused⟩ := later.outside number (by omega)
    rw [accesses_append, List.count_append, untouched, alsoUntouched, unused,
      alsoUnused]
    exact ⟨rfl, rfl⟩

/-- The temporary that takes a value is the first one, and it is written once. -/
theorem of_fills
    (fills : Fills (some (.temp (low + 1))) (low + 1) high code) :
    Yields [.temp (low + 1)] low high code := by
  have ordered := fills.ordered
  refine ⟨by omega, ?_, ?_⟩
  · intro number above below
    by_cases own : number = low + 1
    · subst own
      have written := fills.outside (low + 1) (Or.inl (Nat.le_refl _))
      rw [stores, if_pos rfl] at written
      exact Or.inl ⟨written, by simp⟩
    · have unused : [Operand.temp (low + 1)].count (.temp number) = 0 := by
        simp [Ne.symm own]
      rcases fills.inside number (by omega) below with written | used
      · exact Or.inl ⟨written, by omega⟩
      · exact Or.inr ⟨used, unused⟩
  · intro number away
    have other : low + 1 ≠ number := by omega
    have untouched := fills.outside number (by omega)
    rw [stores, if_neg (by simpa using other)] at untouched
    exact ⟨untouched, by simp [other]⟩

/-- Reading the values where they were left completes the code. -/
theorem consume
    {target : Option Operand} (yields : Yields operands low high before)
    (bounded : ∀ number, target = some (.temp number) → number ≤ low)
    (consumes : Consumes operands target after) :
    Fills target low high (before ++ after) := by
  refine ⟨yields.ordered, ?_, ?_⟩
  · intro number above below
    obtain ⟨count, read, shape⟩ := consumes number
    rw [accesses_append, shape, stores_of_lt bounded above, List.append_nil]
    rcases yields.inside number above below with
      ⟨written, once⟩ | ⟨used, never⟩
    · rw [written]
      have few : count = 0 ∨ count = 1 := by omega
      rcases few with rfl | rfl
      · exact Or.inl rfl
      · exact Or.inr rfl
    · have none : count = 0 := by omega
      rw [used, none]
      exact Or.inr rfl
  · intro number away
    obtain ⟨count, read, shape⟩ := consumes number
    obtain ⟨untouched, unused⟩ := yields.outside number away
    have none : count = 0 := by omega
    rw [accesses_append, untouched, shape, none]
    rfl

end Yields

namespace Expr

theorem yields_anywhere
    {expr : Expr} (temps : Nat)
    (fills : ∀ target temps,
      (∀ number, some target = some (.temp number) → number ≤ temps) →
        Fills (some target) temps (expr.lower (.into target) temps).temps
          (expr.lower (.into target) temps).code) :
    Yields [(expr.lower .anywhere temps).operand] temps
      (expr.lower .anywhere temps).temps
      (expr.lower .anywhere temps).code := by
  by_cases atom : expr.IsAtom
  · cases expr with
    | atom truth text =>
        rw [lower_anywhere_atom]
        exact .word text temps
    | binary | call | load =>
        exact atom.elim
  · rw [lower_anywhere_eq_into atom, operand_lower_into]
    apply Yields.of_fills
    apply fills
    intro number same
    cases same
    exact Nat.le_refl _

theorem yields_lowerArguments
    {args : List Expr} (temps : Nat)
    (fills : ∀ arg ∈ args, ∀ target temps,
      (∀ number, some target = some (.temp number) → number ≤ temps) →
        Fills (some target) temps (arg.lower (.into target) temps).temps
          (arg.lower (.into target) temps).code) :
    Yields (lowerArguments temps args).operands temps
      (lowerArguments temps args).temps (lowerArguments temps args).code := by
  induction args generalizing temps with
  | nil =>
      simp only [lowerArguments]
      exact .nil temps
  | cons first others inductionHypothesis =>
      rw [List.forall_mem_cons] at fills
      have head :=
        Yields.of_fills
          (fills.1 (.temp (temps + 1)) (temps + 1) (by simp))
      have tail :=
        inductionHypothesis
          (first.lower (.into (.temp (temps + 1))) (temps + 1)).temps fills.2
      simp only [lowerArguments, operand_lower_into]
      exact head.append tail

/-- The code of an expression takes temporaries of its own and reads each of them at
most once, behind its write. -/
theorem fills_into
    (expr : Expr) (target : Operand) (temps : Nat)
    (bounded : ∀ number, some target = some (.temp number) → number ≤ temps) :
    Fills (some target) temps (expr.lower (.into target) temps).temps
      (expr.lower (.into target) temps).code := by
  induction expr generalizing target temps with
  | atom truth text =>
      rw [lower_into_atom]
      refine (Yields.nil temps).consume bounded (consumes_storing rfl ?_)
      intro number
      simp [Instruction.sources]
  | binary truth operator lhs rhs lhsFills rhsFills =>
      have left := yields_anywhere temps lhsFills
      have right :=
        yields_anywhere (lhs.lower .anywhere temps).temps rhsFills
      simp only [lower_into_binary, ← List.append_assoc]
      refine (left.append right).consume bounded (consumes_storing rfl ?_)
      intro number
      exact Nat.le_refl _
  | call truth callee args argsFills =>
      have passed := yields_lowerArguments temps argsFills
      rw [lower_into_call]
      exact passed.consume bounded (consumes_call callee _ target)
  | load truth cell index indexFills =>
      have place := yields_anywhere temps indexFills
      rw [lower_into_load]
      refine place.consume bounded (consumes_storing rfl ?_)
      intro number
      simp [Instruction.sources, List.count_cons]

theorem yields_lower_anywhere (expr : Expr) (temps : Nat) :
    Yields [(expr.lower .anywhere temps).operand] temps
      (expr.lower .anywhere temps).temps
      (expr.lower .anywhere temps).code :=
  yields_anywhere temps (fills_into expr)

theorem fills_lowerCondition (expr : Expr) (target : Label) (temps : Nat) :
    Fills none temps (expr.lowerCondition target true temps).2
      (expr.lowerCondition target true temps).1 := by
  rcases lowerCondition_cases expr target temps with comparison | shape
  · obtain ⟨truth, operator, other, lhs, rhs, rfl, _, shape⟩ := comparison
    have left := yields_lower_anywhere lhs temps
    have right :=
      yields_lower_anywhere rhs (lhs.lower .anywhere temps).temps
    simp only [shape, ← List.append_assoc]
    refine (left.append right).consume nofun (consumes_singleton ?_)
    intro number
    exact Nat.le_refl _
  · have value := yields_lower_anywhere expr temps
    rw [shape]
    refine value.consume nofun (consumes_singleton ?_)
    intro number
    simp [Instruction.sources, List.count_cons]

end Expr

/-! ## Temporaries of statements -/

def Entry.events (operand : Operand) : Entry → List Event
  | .create => []
  | .place _ => [.label]
  | .emit instruction => instruction.events operand

/-- What happens to an operand in code with labels. -/
def history (operand : Operand) (entries : List Entry) : List Event :=
  entries.flatMap (Entry.events operand)

theorem history_append (operand : Operand) (first second : List Entry) :
    history operand (first ++ second) =
      history operand first ++ history operand second :=
  List.flatMap_append

theorem history_emitAll (operand : Operand) (code : List Instruction) :
    history operand (emitAll code) = accesses operand code :=
  List.flatMap_map ..

/-- The variable is neither read nor written. -/
def Bare (events : List Event) : Prop :=
  ∀ event ∈ events, event = .label

/-- The variable is written once and then read at most once, with no label between
the two. -/
def Settled (events : List Event) : Prop :=
  ∃ before used after,
    events = before ++ (.write :: used ++ after) ∧ Bare before ∧ Bare after ∧
      (used = [] ∨ used = [.read])

section Settled

variable {first second : List Event}

theorem Bare.append (earlier : Bare first) (later : Bare second) :
    Bare (first ++ second) :=
  List.forall_mem_append.mpr ⟨earlier, later⟩

theorem Bare.append_settled (bare : Bare first) (settled : Settled second) :
    Settled (first ++ second) := by
  obtain ⟨before, used, after, rfl, beforeBare, afterBare, shape⟩ := settled
  exact
    ⟨first ++ before, used, after, by simp, bare.append beforeBare, afterBare,
      shape⟩

theorem Settled.append_bare (settled : Settled first) (bare : Bare second) :
    Settled (first ++ second) := by
  obtain ⟨before, used, after, rfl, beforeBare, afterBare, shape⟩ := settled
  exact
    ⟨before, used, after ++ second, by simp, beforeBare, afterBare.append bare,
      shape⟩

end Settled

/-- Code with labels takes the temporaries above `low` up to `high`, and each of them
is settled. -/
structure Tidy (low high : Nat) (entries : List Entry) : Prop where
  ordered : low ≤ high
  inside : ∀ number, low < number → number ≤ high →
    Settled (history (.temp number) entries)
  outside : ∀ number, number ≤ low ∨ high < number →
    Bare (history (.temp number) entries)

namespace Tidy

variable {low middle high : Nat} {first second : List Entry}

theorem nil (low : Nat) : Tidy low low [] :=
  ⟨Nat.le_refl _, fun _ above below => by omega, fun _ _ => nofun⟩

theorem append
    (earlier : Tidy low middle first) (later : Tidy middle high second) :
    Tidy low high (first ++ second) := by
  have lowMiddle := earlier.ordered
  have middleHigh := later.ordered
  refine ⟨by omega, ?_, ?_⟩
  · intro number above below
    rw [history_append]
    by_cases within : number ≤ middle
    · have settled := earlier.inside number above within
      exact settled.append_bare (later.outside number (Or.inl within))
    · have bare := earlier.outside number (by omega)
      exact bare.append_settled (later.inside number (by omega) below)
  · intro number away
    rw [history_append]
    exact
      (earlier.outside number (by omega)).append
        (later.outside number (by omega))

/-- An entry that touches no temporary. -/
theorem single
    {entry : Entry} (bare : ∀ number, Bare (entry.events (.temp number)))
    (low : Nat) :
    Tidy low low [entry] := by
  refine ⟨Nat.le_refl _, fun _ above below => by omega, fun number _ => ?_⟩
  rw [history, List.flatMap_singleton]
  exact bare number

theorem create (low : Nat) : Tidy low low [.create] :=
  single (fun _ => by simp [Bare, Entry.events]) low

theorem place (label : Label) (low : Nat) : Tidy low low [.place label] :=
  single (fun _ => by simp [Bare, Entry.events]) low

/-- An instruction without operands. -/
theorem idle
    {instruction : Instruction} (target : instruction.target? = none)
    (sources : instruction.sources = []) (low : Nat) :
    Tidy low low [.emit instruction] :=
  single
    (fun _ => by
      simp [Bare, Entry.events, Instruction.events, target, sources])
    low

theorem jump (label : Label) (low : Nat) :
    Tidy low low [.emit (.jump label .always)] :=
  idle rfl rfl low

theorem leave (function : String) (low : Nat) :
    Tidy low low (emitAll [.set .counter (.resume function)]) :=
  single
    (fun _ => by
      simp [Bare, Entry.events, Instruction.events, Instruction.target?,
        Instruction.sources, Operand.counter])
    low

theorem of_fills
    {code : List Instruction} (fills : Fills none low high code) :
    Tidy low high (emitAll code) := by
  refine ⟨fills.ordered, ?_, ?_⟩
  · intro number above below
    rw [history_emitAll]
    rcases fills.inside number above below with written | used
    · exact ⟨[], [], [], by simp [written], nofun, nofun, Or.inl rfl⟩
    · exact ⟨[], [.read], [], by simp [used], nofun, nofun, Or.inr rfl⟩
  · intro number away
    rw [history_emitAll, fills.outside number away]
    exact nofun

end Tidy

namespace Stmt

mutual

theorem tidy_lower :
    ∀ (stmt : Stmt) (supply : Supply),
      Tidy supply.temps (stmt.lower supply).2.temps (stmt.lower supply).1
  | .assign target value, supply => by
      have stored := Expr.fills_into value (.word target) supply.temps nofun
      rw [lower_assign]
      exact Tidy.of_fills (stored.forget nofun)
  | .store cell index value, supply => by
      have stored := Expr.yields_lower_anywhere value supply.temps
      have place :=
        Expr.yields_lower_anywhere index
          (value.lower .anywhere supply.temps).temps
      simp only [lower_store, ← List.append_assoc]
      apply Tidy.of_fills
      refine (stored.append place).consume nofun (consumes_singleton ?_)
      intro number
      simp [Instruction.sources, List.count_cons]
  | .ifThen condition thenBranch, supply => by
      have test :=
        Expr.fills_lowerCondition condition ⟨supply.labels⟩ supply.temps
      have branch :=
        tidy_lower thenBranch
          ⟨supply.labels + 1,
            (condition.lowerCondition ⟨supply.labels⟩ true supply.temps).2⟩
      rw [lower_ifThen]
      exact
        (Tidy.create _).append
          ((Tidy.of_fills test).append (branch.append (Tidy.place _ _)))
  | .ifElse condition thenBranch elseBranch, supply => by
      have test :=
        Expr.fills_lowerCondition condition ⟨supply.labels⟩ supply.temps
      have first :=
        tidy_lower thenBranch
          ⟨supply.labels + 2,
            (condition.lowerCondition ⟨supply.labels⟩ true supply.temps).2⟩
      have second :=
        tidy_lower elseBranch
          (thenBranch.lower
            ⟨supply.labels + 2,
              (condition.lowerCondition
                ⟨supply.labels⟩ true supply.temps).2⟩).2
      rw [lower_ifElse]
      exact
        ((Tidy.create _).append (Tidy.create _)).append
          ((Tidy.of_fills test).append
            (first.append
              (((Tidy.jump _ _).append (Tidy.place _ _)).append
                (second.append (Tidy.place _ _)))))
  | .loop home exit condition body, supply => by
      have test := Expr.fills_lowerCondition condition exit supply.temps
      have repeated :=
        tidy_lower body
          { supply with
            temps := (condition.lowerCondition exit true supply.temps).2 }
      rw [lower_loop]
      exact
        (Tidy.place _ _).append
          ((Tidy.of_fills test).append
            (repeated.append ((Tidy.jump _ _).append (Tidy.place _ _))))
  | .ret function none, supply => by
      rw [lower_ret]
      exact Tidy.leave function supply.temps
  | .ret function (some value), supply => by
      have stored :=
        Expr.fills_into value (.result function) supply.temps nofun
      rw [lower_ret, lowerResult]
      simp only [emitAll, List.map_append]
      exact
        (Tidy.of_fills (stored.forget nofun)).append (Tidy.leave function _)
  | .jump target, supply => by
      rw [lower_jump]
      exact Tidy.jump target _
  | .raw text, supply => by
      rw [lower_raw]
      exact Tidy.idle rfl rfl _
  | .block body, supply => by
      rw [lower_block]
      exact tidy_lowerAll body supply
  | .empty, supply => by
      rw [lower_empty]
      exact Tidy.nil _

theorem tidy_lowerAll :
    ∀ (body : List Stmt) (supply : Supply),
      Tidy supply.temps (lowerAll supply body).2.temps (lowerAll supply body).1
  | [], supply => by
      rw [lowerAll_nil]
      exact Tidy.nil _
  | first :: others, supply => by
      have head := tidy_lower first supply
      have tail := tidy_lowerAll others (first.lower supply).2
      rw [lowerAll_cons]
      exact head.append tail

end

end Stmt

namespace Function

theorem tidy_lowerAll (supply : Supply) (functions : List Function) :
    Tidy supply.temps (lowerAll supply functions).2.temps
      (lowerAll supply functions).1 := by
  induction functions generalizing supply with
  | nil =>
      exact Tidy.nil _
  | cons first others inductionHypothesis =>
      have body := Stmt.tidy_lowerAll first.body supply
      have head :
          Tidy supply.temps (first.lower supply).2.temps
            (first.lower supply).1 :=
        (Tidy.place first.home supply.temps).append body
      rw [lowerAll_cons]
      exact head.append (inductionHypothesis (first.lower supply).2)

end Function

namespace Program

def temps (program : Program) : Nat :=
  (Function.lowerAll program.mainCode.2 program.functions).2.temps

theorem tidy_lower (program : Program) :
    Tidy 0 program.temps program.lower := by
  have main : Tidy 0 program.mainCode.2.temps program.mainCode.1 :=
    Stmt.tidy_lowerAll program.main ⟨program.labels.created, 0⟩
  have functions :=
    Function.tidy_lowerAll program.mainCode.2 program.functions
  have halt :
      Tidy program.mainCode.2.temps program.mainCode.2.temps
        [.emit .halt] :=
    Tidy.idle rfl rfl _
  rw [lower_eq_append, functionCode]
  by_cases none : program.functions = []
  · rw [if_pos none, temps, none]
    exact main.append (Tidy.nil _)
  · rw [if_neg none]
    exact main.append (halt.append functions)

end Program

end FlatCode
