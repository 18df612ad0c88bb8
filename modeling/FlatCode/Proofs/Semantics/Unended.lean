import FlatCode.Proofs.Semantics.Trace

/-!
# Executions that do not end

Where an execution of a plain program has no answer, some loop has used up its bound,
and there is a store behind each of its rounds.  So the trace is about as long as the
bound, only that each function on the way down to the loop lowers the bound by one:
`Program.le_length_trace`.
-/

namespace FlatCode

open Program (plainParts)

section Exhausts

variable {Item Answer Later : Type} {bound less : Nat} {seen : List Item}
  {answer : Option Answer}

/-- An execution that has no answer has used up a bound, with a store on the way for
each unit of it. -/
def Exhausts (bound : Nat) (seen : List Item) (answer : Option Answer) : Prop :=
  answer = none → bound ≤ seen.length

namespace Exhausts

theorem of_some (result : Answer) : Exhausts bound seen (some result) :=
  nofun

theorem le (exhausts : Exhausts bound seen answer) (fits : less ≤ bound) :
    Exhausts less seen answer :=
  fun unended => Nat.le_trans fits (exhausts unended)

theorem cons (item : Item) (exhausts : Exhausts bound seen answer) :
    Exhausts (bound + 1) (item :: seen) answer :=
  fun unended => Nat.succ_le_succ (exhausts unended)

theorem ite
    {condition : Prop} [Decidable condition] {others : List Item}
    {otherwise : Option Answer} (exhausts : Exhausts bound seen answer)
    (otherwiseExhausts : Exhausts bound others otherwise) :
    Exhausts bound (if condition then seen else others)
      (if condition then answer else otherwise) := by
  by_cases holdsTrue : condition
  · rw [if_pos holdsTrue, if_pos holdsTrue]
    exact exhausts
  · rw [if_neg holdsTrue, if_neg holdsTrue]
    exact otherwiseExhausts

theorem bind
    {later : Answer → List Item} {next : Answer → Option Later}
    (exhausts : Exhausts bound seen answer)
    (follow : ∀ result, Exhausts bound (later result) (next result)) :
    Exhausts bound (seen ++ answer.elim [] later) (answer.bind next) := by
  intro unended
  rw [List.length_append]
  cases answer with
  | none =>
      exact Nat.le_trans (exhausts rfl) (Nat.le_add_right _ _)
  | some result =>
      exact Nat.le_trans (follow result unended) (Nat.le_add_left _ _)

theorem bindNext
    {next : Answer → Option Later}
    (exhausts : Exhausts bound seen answer)
    (follow : ∀ result, Exhausts bound ([] : List Item) (next result)) :
    Exhausts bound seen (answer.bind next) := by
  rw [← List.append_nil seen, ← elim_nil answer]
  exact exhausts.bind follow

end Exhausts

end Exhausts

variable {Value Memory : Type}

/-- The bodies of the called functions have long traces where they have no answer. -/
def ExhaustsAll
    (invoke : Callee → Store Value Memory → Option (Store Value Memory))
    (visits : Callee → Store Value Memory → List (Store Value Memory))
    (bound : Nat) (callees : List Callee) : Prop :=
  ∀ callee ∈ callees, ∀ store,
    Exhausts bound (visits callee store) (invoke callee store)

variable [DecidableEq Value] {target : Target Value Memory}
  {invoke : Callee → Store Value Memory → Option (Store Value Memory)}
  {visits : Callee → Store Value Memory → List (Store Value Memory)}
  {bound less fuel : Nat} {callees : List Callee}

namespace Expr

omit [DecidableEq Value] in
theorem exhausts_evalAll
    {args : List Expr}
    (exhausts : ∀ arg ∈ args, ∀ store,
      Exhausts bound (target.evalTrace invoke visits arg store)
        (target.eval invoke arg store))
    (store : Store Value Memory) :
    Exhausts bound (target.evalAllTrace invoke visits args store)
      (target.evalAll invoke args store) := by
  induction args generalizing store with
  | nil =>
      rw [Target.evalAll]
      exact .of_some _
  | cons argument others inductionHypothesis =>
      rw [List.forall_mem_cons] at exhausts
      rw [Target.evalAllTrace, Target.evalAll]
      refine (exhausts.1 store).bind fun first => ?_
      exact
        (inductionHypothesis exhausts.2 first.2).bindNext fun _ => .of_some _

omit [DecidableEq Value] in
theorem exhausts_eval
    (spent : ExhaustsAll invoke visits bound callees)
    {expr : Expr} (linked : expr.Linked callees) (store : Store Value Memory) :
    Exhausts bound (target.evalTrace invoke visits expr store)
      (target.eval invoke expr store) := by
  induction expr generalizing store with
  | atom truth text =>
      rw [Target.eval]
      exact .of_some _
  | binary truth operator lhs rhs lhsExhausts rhsExhausts =>
      rw [Target.evalTrace, Target.eval]
      refine (lhsExhausts linked.1 store).bind fun left => ?_
      exact (rhsExhausts linked.2 left.2).bindNext fun _ => .of_some _
  | call truth callee args argsExhaust =>
      obtain ⟨member, _, argsLinked⟩ := linked
      rw [linkedAll_iff] at argsLinked
      have arguments :=
        exhausts_evalAll
          (fun arg inside => argsExhaust arg inside (argsLinked arg inside)) store
      rw [Target.evalTrace, Target.eval]
      refine arguments.bind fun passed => ?_
      exact (spent callee member _).bindNext fun _ => .of_some _
  | load truth cell index indexExhausts =>
      rw [Target.evalTrace, Target.eval]
      exact (indexExhausts linked store).bindNext fun _ => .of_some _

theorem exhausts_test
    (spent : ExhaustsAll invoke visits bound callees)
    {condition : Expr} (linked : condition.Linked callees)
    (store : Store Value Memory) :
    Exhausts bound (target.evalTrace invoke visits condition store)
      (target.test invoke condition store) := by
  rw [Target.test]
  exact (exhausts_eval spent linked store).bindNext fun _ => .of_some _

end Expr

omit [DecidableEq Value] in
/-- A loop that does not end within its rounds has a store behind each of them. -/
theorem Target.exhausts_repeatLoop
    {condition : Store Value Memory → Option (Bool × Store Value Memory)}
    {body : Store Value Memory → Option (Outcome × Store Value Memory)}
    {tests bodies : Store Value Memory → List (Store Value Memory)}
    (testExhausts : ∀ store, Exhausts bound (tests store) (condition store))
    (bodyExhausts : ∀ store, Exhausts bound (bodies store) (body store))
    {rounds : Nat} (enough : less ≤ rounds) (fits : less ≤ bound)
    (store : Store Value Memory) :
    Exhausts less (repeatTrace condition body tests bodies rounds store)
      (repeatLoop condition body rounds store) := by
  induction rounds generalizing less store with
  | zero =>
      intro _
      exact Nat.le_trans enough (Nat.zero_le _)
  | succ rounds inductionHypothesis =>
      rw [repeatTrace, repeatLoop]
      refine ((testExhausts store).le fits).bind fun tested => ?_
      refine .ite ?_ (.of_some _)
      refine ((bodyExhausts tested.2).le fits).bind fun ended => ?_
      obtain ⟨outcome, after⟩ := ended
      cases outcome with
      | normal | continued =>
          have rest : Exhausts (less - 1) _ _ :=
            inductionHypothesis (by omega) (by omega) after
          exact (rest.cons after).le (by omega)
      | broke | returned =>
          exact .of_some _

namespace Stmt

mutual

theorem exhausts_exec
    (target : Target Value Memory) {function : Option String}
    (spent : ExhaustsAll invoke visits bound callees) (fits : bound ≤ fuel) :
    ∀ (stmt : Stmt) (around : Option LoopLabels) (created : Nat)
      (before : Store Value Memory),
      stmt.Formed (plainParts callees function) around created →
        Exhausts bound (target.execTrace invoke visits fuel around stmt before)
          (target.exec invoke fuel around stmt before)
  | .assign _ value, around, _, before, formed => by
      rw [Target.execTrace, Target.exec]
      refine
        (Expr.exhausts_eval spent formed.2.linked before).bindNext
          fun result => ?_
      split <;> exact .of_some _
  | .store _ index value, around, _, before, formed => by
      rw [Target.execTrace, Target.exec]
      refine
        (Expr.exhausts_eval spent formed.2.2.linked before).bind
          fun stored => ?_
      exact
        (Expr.exhausts_eval spent formed.2.1.linked stored.2).bindNext fun _ =>
          .of_some _
  | .ifThen condition thenBranch, around, created, before, formed => by
      rw [Target.execTrace, Target.exec]
      refine
        (Expr.exhausts_test spent formed.1.linked before).bind fun tested => ?_
      have branch :=
        exhausts_exec target spent fits thenBranch around created tested.2
          formed.2
      exact .ite branch (.of_some _)
  | .ifElse condition thenBranch elseBranch, around, created, before,
      formed => by
      rw [Target.execTrace, Target.exec]
      refine
        (Expr.exhausts_test spent formed.1.linked before).bind fun tested => ?_
      have first :=
        exhausts_exec target spent fits thenBranch around created tested.2
          formed.2.1
      have second :=
        exhausts_exec target spent fits elseBranch around _ tested.2 formed.2.2
      exact .ite first second
  | .loop _ _ _ body, _, _, before, ⟨rfl, rfl, plain, formed⟩ => by
      rw [Target.execTrace, Target.exec]
      exact
        Target.exhausts_repeatLoop (Expr.exhausts_test spent plain.linked)
          (fun inside => exhausts_exec target spent fits body _ _ inside formed)
          fits (Nat.le_refl bound) before
  | .ret _ none, around, _, before, _ => by
      rw [Target.exec]
      exact .of_some _
  | .ret _ (some value), around, _, before, formed => by
      rw [Target.execTrace, Target.exec]
      exact
        (Expr.exhausts_eval spent (formed.2 value rfl).linked before).bindNext
          fun _ => .of_some _
  | .jump label, _, _, before, ⟨labels, rfl, aim⟩ => by
      rw [Target.exec]
      by_cases leaves : label = labels.exit
      · rw [if_pos leaves]
        exact .of_some _
      · rw [if_neg leaves, if_pos (aim.resolve_right leaves)]
        exact .of_some _
  | .raw _, _, _, _, formed =>
      formed.elim
  | .block body, around, created, before, formed => by
      rw [Target.execTrace, Target.exec]
      exact exhausts_execAll target spent fits body around created before formed
  | .empty, around, _, before, _ => by
      rw [Target.exec]
      exact .of_some _

theorem exhausts_execAll
    (target : Target Value Memory) {function : Option String}
    (spent : ExhaustsAll invoke visits bound callees) (fits : bound ≤ fuel) :
    ∀ (body : List Stmt) (around : Option LoopLabels) (created : Nat)
      (before : Store Value Memory),
      FormedAll (plainParts callees function) around created body →
        Exhausts bound
          (target.execAllTrace invoke visits fuel around body before)
          (target.execAll invoke fuel around body before)
  | [], around, _, before, _ => by
      rw [Target.execAll]
      exact .of_some _
  | first :: others, around, created, before, formed => by
      rw [Target.execAllTrace, Target.execAll]
      have head :=
        exhausts_exec target spent fits first around created before formed.1
      refine head.bind fun ended => ?_
      obtain ⟨outcome, after⟩ := ended
      cases outcome with
      | normal =>
          have rest :=
            exhausts_execAll target spent fits others around _ after formed.2
          exact (rest.cons after).le (Nat.le_succ bound)
      | broke | continued | returned =>
          exact .of_some _

end

end Stmt

/-! ## Functions -/

section Functions

variable {program : Program} {earlier : List Function} {created : Nat}

/-- The body of a function lowers the bound by one. -/
theorem Function.exhausts_call
    {function : Function}
    (formed : function.Formed plainParts earlier created)
    (found : program.function? function.name = some function)
    (spent : ∀ fuel,
      ExhaustsAll (program.call target fuel) (program.callTrace target fuel)
        (fuel - earlier.length) (earlier.map callee))
    (fuel : Nat) (store : Store Value Memory) :
    Exhausts (fuel - (earlier.length + 1))
      (program.callTrace target fuel function.callee store)
      (program.call target fuel function.callee store) := by
  cases fuel with
  | zero =>
      rw [Nat.zero_sub]
      exact fun _ => Nat.zero_le _
  | succ fuel =>
      have body :=
        Stmt.exhausts_execAll target (spent fuel) (Nat.sub_le _ _)
          function.body none created store formed.body
      rw [Program.callTrace, Program.call,
        show program.function? function.callee.name = _ from found,
        Option.elim_some, Nat.add_sub_add_right]
      exact body.bindNext fun _ => .of_some _

theorem Function.exhaustsAll_of_formedAll
    (target : Target Value Memory) {functions below : List Function}
    (listed : program.functions = earlier ++ (functions ++ below))
    (formed : FormedAll plainParts earlier created functions)
    (spent : ∀ fuel,
      ExhaustsAll (program.call target fuel) (program.callTrace target fuel)
        (fuel - earlier.length) (earlier.map callee))
    (fuel : Nat) :
    ExhaustsAll (program.call target fuel) (program.callTrace target fuel)
      (fuel - (earlier ++ functions).length)
      ((earlier ++ functions).map callee) := by
  induction functions generalizing earlier created with
  | nil =>
      rw [List.append_nil]
      exact spent fuel
  | cons first others inductionHypothesis =>
      have found :=
        Program.function?_of_append listed formed.1.name_not_mem
      have rest :
          program.functions = earlier ++ [first] ++ (others ++ below) := by
        rw [listed, List.append_assoc, List.singleton_append, List.cons_append]
      have next : ∀ fuel,
          ExhaustsAll (program.call target fuel) (program.callTrace target fuel)
            (fuel - (earlier ++ [first]).length)
            ((earlier ++ [first]).map callee) := by
        intro fuel called member store
        rw [List.length_append, List.length_singleton]
        rw [List.map_append, List.mem_append] at member
        rcases member with above | here
        · exact (spent fuel called above store).le (by omega)
        · obtain rfl := List.mem_singleton.mp here
          exact exhausts_call formed.1 found spent fuel store
      have all := inductionHypothesis rest formed.2 next
      rwa [List.append_assoc, List.singleton_append] at all

end Functions

/-- An execution that has not ended has passed through as many stores as its bound
says, less one for each function. -/
theorem Program.le_length_trace
    {program : Program} (plain : program.Plain) {fuel : Nat}
    {store : Store Value Memory}
    (unended : program.run target fuel store = none) :
    fuel ≤
      (program.trace target fuel store).length + program.functions.length := by
  have functions :=
    Function.exhaustsAll_of_formedAll target (List.append_nil _).symm
      plain.functions (fun _ => nofun) fuel
  rw [List.nil_append] at functions
  have main :=
    Stmt.exhausts_execAll target functions (Nat.sub_le _ _) program.main none _
      store plain.main
  have ended :
      program.run target fuel store =
        (target.execAll (program.call target fuel) fuel none program.main
          store).bind fun result => some result.2 := rfl
  rw [ended] at unended
  have long := (main.bindNext fun _ => .of_some _) unended
  rw [Program.trace]
  omega

end FlatCode
