import FlatCode.Proofs.Tree.Scope
import Mathlib.Data.List.Nodup
import Mathlib.Logic.Relation

/-!
# Calls of a program that was read

A call carries a copy of the signature of its function, taken while the text was
still being read.  In a program that was read every copy agrees with the function
that has this name in the end, and a call in the body of a function goes to a
function above it.

The position of a function therefore decreases along every chain of calls.  No
function calls itself, not even through others, and no function is entered a
second time while a call of it has not returned: `Program.Active` are the lists of
functions that can be active at the same time, and they have no repetitions.  That
is why one slot for the return address and one for the result are enough for each
function.
-/

namespace FlatCode

/-! ## The expressions of a tree -/

namespace Expr

mutual

/-- An expression and all expressions inside it. -/
def nodes : Expr → List Expr
  | .atom truth text => [.atom truth text]
  | .binary truth operator lhs rhs =>
      .binary truth operator lhs rhs :: (lhs.nodes ++ rhs.nodes)
  | .call truth callee args => .call truth callee args :: nodesAll args
  | .load truth cell index => .load truth cell index :: index.nodes

def nodesAll : List Expr → List Expr
  | [] => []
  | first :: others => first.nodes ++ nodesAll others

end

theorem mem_nodesAll {args : List Expr} {node : Expr} :
    node ∈ nodesAll args ↔ ∃ arg ∈ args, node ∈ arg.nodes := by
  induction args with
  | nil =>
      simp [nodesAll]
  | cons first others inductionHypothesis =>
      simp [nodesAll, inductionHypothesis]

/-- Every expression inside a linked one is linked. -/
theorem linked_of_mem_nodes
    {functions : List Callee} {expr node : Expr}
    (linked : expr.Linked functions) (member : node ∈ expr.nodes) :
    node.Linked functions := by
  induction expr with
  | atom truth text =>
      rw [nodes, List.mem_singleton] at member
      exact member ▸ linked
  | binary truth operator lhs rhs lhsHypothesis rhsHypothesis =>
      rw [nodes, List.mem_cons, List.mem_append] at member
      rcases member with rfl | left | right
      · exact linked
      · exact lhsHypothesis linked.1 left
      · exact rhsHypothesis linked.2 right
  | call truth callee args argsHypothesis =>
      rw [nodes, List.mem_cons, mem_nodesAll] at member
      rcases member with rfl | ⟨arg, argMember, inside⟩
      · exact linked
      · exact
          argsHypothesis arg argMember
            (linkedAll_iff.mp linked.2.2 arg argMember) inside
  | load truth cell index indexHypothesis =>
      rw [nodes, List.mem_cons] at member
      rcases member with rfl | inside
      · exact linked
      · exact indexHypothesis linked inside

end Expr

namespace Stmt

mutual

/-- The expressions of a statement and of the statements inside it. -/
def exprs : Stmt → List Expr
  | .assign _ value => [value]
  | .store _ index value => [index, value]
  | .ifThen condition thenBranch => condition :: thenBranch.exprs
  | .ifElse condition thenBranch elseBranch =>
      condition :: (thenBranch.exprs ++ elseBranch.exprs)
  | .loop _ _ condition body => condition :: body.exprs
  | .ret _ value => value.toList
  | .block body => exprsAll body
  | .jump _ | .raw _ | .empty => []

def exprsAll : List Stmt → List Expr
  | [] => []
  | first :: others => first.exprs ++ exprsAll others

end

def nodesAll (body : List Stmt) : List Expr :=
  Expr.nodesAll (exprsAll body)

variable {parts : Parts} {property : Expr → Prop}

mutual

/-- What is known of the parts of a statement that was read holds of all its
expressions. -/
theorem forall_exprs_of_formed
    (value : ∀ expr, parts.value expr → property expr)
    (condition : ∀ expr, parts.condition expr → property expr) :
    ∀ (stmt : Stmt) (around : Option LoopLabels) (created : Nat),
      stmt.Formed parts around created → ∀ expr ∈ stmt.exprs, property expr
  | .assign _ assigned, _, _, formed => by
      simpa [exprs] using value assigned formed.2
  | .store _ index stored, _, _, formed => by
      simpa [exprs] using
        And.intro (value index formed.2.1) (value stored formed.2.2)
  | .ifThen tested thenBranch, around, created, formed => by
      rw [exprs, List.forall_mem_cons]
      exact
        ⟨condition tested formed.1,
          forall_exprs_of_formed value condition thenBranch around created
            formed.2⟩
  | .ifElse tested thenBranch elseBranch, around, created, formed => by
      rw [exprs, List.forall_mem_cons, List.forall_mem_append]
      exact
        ⟨condition tested formed.1,
          forall_exprs_of_formed value condition thenBranch around created
            formed.2.1,
          forall_exprs_of_formed value condition elseBranch around _
            formed.2.2⟩
  | .loop home exit tested body, _, created, formed => by
      rw [exprs, List.forall_mem_cons]
      exact
        ⟨condition tested formed.2.2.1,
          forall_exprs_of_formed value condition body _ (created + 2)
            formed.2.2.2⟩
  | .ret _ result, _, _, formed => by
      intro expr member
      rw [exprs, Option.mem_toList] at member
      exact value expr (formed.2 expr member)
  | .block body, around, created, formed => by
      rw [exprs]
      exact
        forall_exprsAll_of_formed value condition body around created formed
  | .jump _, _, _, _ | .raw _, _, _, _ | .empty, _, _, _ => by
      simp [exprs]

/-- What is known of the parts of statements that were read holds of all their
expressions. -/
theorem forall_exprsAll_of_formed
    (value : ∀ expr, parts.value expr → property expr)
    (condition : ∀ expr, parts.condition expr → property expr) :
    ∀ (body : List Stmt) (around : Option LoopLabels) (created : Nat),
      FormedAll parts around created body →
        ∀ expr ∈ exprsAll body, property expr
  | [], _, _, _ => by
      simp [exprsAll]
  | first :: others, around, created, formed => by
      rw [exprsAll, List.forall_mem_append]
      exact
        ⟨forall_exprs_of_formed value condition first around created formed.1,
          forall_exprsAll_of_formed value condition others around _ formed.2⟩

end

/-- Every call in statements that were read goes to a function in reach and has
one argument for each parameter. -/
theorem linked_of_mem_nodesAll
    {functions : List Callee} {function : Option String} {created : Nat}
    {body : List Stmt}
    (formed :
      FormedAll (Program.linkedParts functions function) none created body)
    {truth : Truth} {callee : Callee} {args : List Expr}
    (member : Expr.call truth callee args ∈ nodesAll body) :
    callee ∈ functions ∧ args.length = callee.params.length := by
  obtain ⟨expr, exprMember, inside⟩ := Expr.mem_nodesAll.mp member
  have exprLinked : expr.Linked functions :=
    forall_exprsAll_of_formed
      (fun _ value => Program.linked_of_value value)
      (fun _ condition => condition) body none created formed expr exprMember
  have callLinked := Expr.linked_of_mem_nodes exprLinked inside
  exact ⟨callLinked.1, callLinked.2.1⟩

end Stmt

namespace Function

variable {parts : List Callee → Option String → Stmt.Parts}

/-- The functions above a function are those it was read behind. -/
theorem formed_of_append
    {program : Program} (formed : program.Formed parts)
    {above below : List Function} {function : Function}
    (listed : program.functions = above ++ function :: below) :
    ∃ created, function.Formed parts above created := by
  have all := formed.functions
  rw [listed, formedAll_append] at all
  exact ⟨_, all.2.1⟩

/-- Function names are distinct. -/
theorem nodup_names
    {earlier functions : List Function} {created : Nat}
    (formed : FormedAll parts earlier created functions)
    (distinct : (earlier.map name).Nodup) :
    ((earlier ++ functions).map name).Nodup := by
  induction functions generalizing earlier created with
  | nil =>
      rwa [List.append_nil]
  | cons first others inductionHypothesis =>
      have longer : ((earlier ++ [first]).map name).Nodup := by
        rw [List.map_append, List.map_singleton, ← List.concat_eq_append]
        exact List.Nodup.concat formed.1.name_not_mem distinct
      have all := inductionHypothesis formed.2 longer
      rwa [List.append_assoc, List.singleton_append] at all

end Function

namespace Program

def nodes (program : Program) : List Expr :=
  (program.functions.flatMap fun function => Stmt.nodesAll function.body) ++
    Stmt.nodesAll program.main

/-- The body of the function named `caller` holds a call of `called`. -/
def Calls (program : Program) (caller called : String) : Prop :=
  ∃ function ∈ program.functions, function.name = caller ∧
    ∃ truth callee args,
      Expr.call truth callee args ∈ Stmt.nodesAll function.body ∧
        callee.name = called

/-- The functions whose calls have not returned yet, the one entered last first:
the main statements run without any, they and every body enter the functions they
call, and the function entered last returns. -/
inductive Active (program : Program) : List String → Prop
  | main : Active program []
  | enter {truth : Truth} {callee : Callee} {args : List Expr} :
      Expr.call truth callee args ∈ Stmt.nodesAll program.main →
        Active program [] → Active program [callee.name]
  | nest {caller called : String} {outer : List String} :
      program.Calls caller called → Active program (caller :: outer) →
        Active program (called :: caller :: outer)
  | leave {called : String} {outer : List String} :
      Active program (called :: outer) → Active program outer

variable {program : Program}

def rank (program : Program) (name : String) : Nat :=
  (program.functions.map Function.name).idxOf name

theorem rank_of_append
    {above below : List Function} {function : Function}
    (listed : program.functions = above ++ function :: below)
    (fresh : function.name ∉ above.map Function.name) :
    program.rank function.name = above.length := by
  rw [rank, listed, List.map_append, List.map_cons,
    List.idxOf_append_of_notMem fresh, List.idxOf_cons_self,
    List.length_map, Nat.add_zero]

theorem rank_lt_of_mem
    {above below : List Function} {function : Function}
    (listed : program.functions = above ++ below)
    (member : function ∈ above) :
    program.rank function.name < above.length := by
  have named : function.name ∈ above.map Function.name :=
    List.mem_map_of_mem member
  rw [rank, listed, List.map_append, List.idxOf_append_of_mem named,
    ← List.length_map (f := Function.name)]
  exact List.idxOf_lt_length_of_mem named

/-- A called function is the one that its name stands for. -/
theorem function?_of_mem
    (formed : program.WellFormed) {function : Function}
    (member : function ∈ program.functions) :
    program.function? function.name = some function := by
  obtain ⟨above, below, listed⟩ := List.append_of_mem member
  obtain ⟨created, functionFormed⟩ := Function.formed_of_append formed listed
  exact function?_of_append listed functionFormed.name_not_mem

/-- A call in a function body goes to a function above it. -/
theorem exists_above_of_call
    (formed : program.WellFormed)
    {above below : List Function} {function : Function}
    (listed : program.functions = above ++ function :: below)
    {truth : Truth} {callee : Callee} {args : List Expr}
    (member : Expr.call truth callee args ∈ Stmt.nodesAll function.body) :
    ∃ called ∈ above, called.callee = callee ∧
      args.length = called.params.length := by
  obtain ⟨created, functionFormed⟩ := Function.formed_of_append formed listed
  obtain ⟨inReach, fits⟩ :=
    Stmt.linked_of_mem_nodesAll functionFormed.body member
  obtain ⟨called, calledMember, rfl⟩ := List.mem_map.mp inReach
  exact ⟨called, calledMember, rfl, fits⟩

/-- A call anywhere in a program goes to one of its functions. -/
theorem exists_of_call
    (formed : program.WellFormed)
    {truth : Truth} {callee : Callee} {args : List Expr}
    (member : Expr.call truth callee args ∈ program.nodes) :
    ∃ called ∈ program.functions, called.callee = callee ∧
      args.length = called.params.length := by
  rcases List.mem_append.mp member with inFunction | inMain
  · obtain ⟨function, functionMember, inside⟩ :=
      List.mem_flatMap.mp inFunction
    obtain ⟨above, below, listed⟩ := List.append_of_mem functionMember
    obtain ⟨called, calledMember, same, fits⟩ :=
      exists_above_of_call formed listed inside
    refine ⟨called, ?_, same, fits⟩
    rw [listed]
    exact List.mem_append_left _ calledMember
  · obtain ⟨inReach, fits⟩ := Stmt.linked_of_mem_nodesAll formed.main inMain
    obtain ⟨called, calledMember, rfl⟩ := List.mem_map.mp inReach
    exact ⟨called, calledMember, rfl, fits⟩

/-! ## Chains of calls -/

/-- A called function stands before the calling one. -/
theorem rank_lt_of_calls
    (formed : program.WellFormed) {caller called : String}
    (calls : program.Calls caller called) :
    program.rank called < program.rank caller := by
  obtain ⟨function, functionMember, rfl, truth, callee, args, inside, rfl⟩ :=
    calls
  obtain ⟨above, below, listed⟩ := List.append_of_mem functionMember
  obtain ⟨created, functionFormed⟩ := Function.formed_of_append formed listed
  obtain ⟨target, targetMember, rfl, _⟩ :=
    exists_above_of_call formed listed inside
  rw [rank_of_append listed functionFormed.name_not_mem]
  exact rank_lt_of_mem listed targetMember

theorem rank_lt_of_transGen
    (formed : program.WellFormed) {caller called : String}
    (chain : Relation.TransGen program.Calls caller called) :
    program.rank called < program.rank caller := by
  induction chain with
  | single calls =>
      exact rank_lt_of_calls formed calls
  | tail _ calls inductionHypothesis =>
      exact Nat.lt_trans (rank_lt_of_calls formed calls) inductionHypothesis

/-- Of the active functions, those entered later stand before those entered
earlier. -/
theorem pairwise_rank_of_active
    (formed : program.WellFormed) {stack : List String}
    (active : program.Active stack) :
    stack.Pairwise fun inner outer => program.rank inner < program.rank outer := by
  induction active with
  | main =>
      exact List.Pairwise.nil
  | enter _ _ _ =>
      exact List.pairwise_singleton _ _
  | @nest caller called outer calls _ inductionHypothesis =>
      have lower := rank_lt_of_calls formed calls
      refine List.pairwise_cons.mpr ⟨?_, inductionHypothesis⟩
      intro name member
      rcases List.mem_cons.mp member with rfl | further
      · exact lower
      · exact
          Nat.lt_trans lower
            ((List.pairwise_cons.mp inductionHypothesis).1 name further)
  | leave _ inductionHypothesis =>
      exact (List.pairwise_cons.mp inductionHypothesis).2

theorem nodup_of_active
    (formed : program.WellFormed) {stack : List String}
    (active : program.Active stack) : stack.Nodup := by
  refine (pairwise_rank_of_active formed active).imp ?_
  rintro inner outer lower rfl
  exact Nat.lt_irrefl _ lower

end Program

/-- In a program that was read

* function names are distinct and no names of builtins, and the parameters of each
  function are distinct;
* every call carries the signature of the function that its name stands for, and
  one argument for each parameter;
* a call in the body of a function goes to a function above it;
* no function calls itself, be it through others, and none is entered again before
  it has returned. -/
theorem calls_go_to_functions_above
    {source : String} {program : Program}
    (read : Program.parse source = .ok program) :
    (program.functions.map Function.name).Nodup ∧
      (∀ function ∈ program.functions,
        function.name ∉ Callable.builtins.map Prod.fst ∧
          function.params.Nodup) ∧
      (∀ truth callee args, Expr.call truth callee args ∈ program.nodes →
        ∃ function,
          program.function? callee.name = some function ∧
            callee = ⟨function.name, function.params, function.home⟩ ∧
            args.length = function.params.length) ∧
      (∀ (index : Nat) (function : Function),
        program.functions[index]? = some function →
          ∀ truth callee args,
            Expr.call truth callee args ∈ Stmt.nodesAll function.body →
              ∃ (lower : Nat) (called : Function),
                lower < index ∧ program.functions[lower]? = some called ∧
                  called.callee = callee) ∧
      (∀ name, ¬ Relation.TransGen program.Calls name name) ∧
      ∀ stack, program.Active stack → stack.Nodup := by
  have formed := Program.wellFormed_of_parse read
  refine ⟨?_, ?_, ?_, ?_, ?_, ?_⟩
  · exact Function.nodup_names formed.functions List.nodup_nil
  · intro function member
    obtain ⟨earlier, created, functionFormed⟩ :=
      Function.formed_of_mem formed.functions member
    refine ⟨?_, functionFormed.params_nodup⟩
    exact Callable.builtin?_eq_none_iff.mp functionFormed.name_not_builtin
  · intro truth callee args member
    obtain ⟨function, functionMember, rfl, fits⟩ :=
      Program.exists_of_call formed member
    exact
      ⟨function, Program.function?_of_mem formed functionMember, rfl, fits⟩
  · intro index function found truth callee args member
    obtain ⟨inside, rfl⟩ := List.getElem?_eq_some_iff.mp found
    have listed :
        program.functions =
          program.functions.take index ++
            program.functions[index] :: program.functions.drop (index + 1) := by
      rw [← List.drop_eq_getElem_cons inside, List.take_append_drop]
    obtain ⟨called, calledMember, rfl, _⟩ :=
      Program.exists_above_of_call formed listed member
    obtain ⟨lower, below, rfl⟩ := List.mem_take_iff_getElem.mp calledMember
    have bound : lower < program.functions.length := by omega
    exact
      ⟨lower, _, by omega, List.getElem?_eq_getElem bound, rfl⟩
  · intro name chain
    exact Nat.lt_irrefl _ (Program.rank_lt_of_transGen formed chain)
  · intro stack active
    exact Program.nodup_of_active formed active

/-- Three functions, each of which calls those above it. -/
theorem calls_go_to_functions_above_of_tower :
    ∃ program,
      Program.parse
          "def a(x) \x7b return x; \x7d def b(y) \x7b return a(a(y)); \x7d def c() \x7b return b(1) + a(2); \x7d m[c()] = b(c());" =
        .ok program ∧
        program.functions.map Function.name = ["a", "b", "c"] ∧
        (∀ truth callee args, Expr.call truth callee args ∈ program.nodes →
          ∃ function,
            program.function? callee.name = some function ∧
              callee = ⟨function.name, function.params, function.home⟩ ∧
              args.length = function.params.length) ∧
        ∀ stack, program.Active stack → stack.Nodup := by
  obtain ⟨program, read, accepted⟩ :=
    Program.exists_of_accepted
      (show ((Program.parse
          "def a(x) \x7b return x; \x7d def b(y) \x7b return a(a(y)); \x7d def c() \x7b return b(1) + a(2); \x7d m[c()] = b(c());"
        ).toOption.any fun program =>
          decide
            (program.functions.map Function.name = ["a", "b", "c"])) = true by
        decide +kernel)
  obtain ⟨_, _, calls, _, _, active⟩ := calls_go_to_functions_above read
  exact ⟨program, read, of_decide_eq_true accepted, calls, active⟩

end FlatCode
