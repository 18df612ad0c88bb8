import FlatCode.Program.Parser

/-!
# The form of a program

A tree that was read has a particular form, which the code of a program relies
on:

* every call goes to a function above it, with one argument for each parameter;
* the labels of loops and functions are numbered in the order of the text, a loop
  taking two numbers before those of its body and a function one number behind
  those of its body;
* a jump goes to the start or to the exit of the innermost loop around it;
* a return names the function around it, and stands in no other place;
* some statement of every function body returns;
* no label has an address yet.

What is known of the names and expressions inside a statement is left open here,
as the fields of `Stmt.Parts`.
-/

namespace FlatCode

namespace Expr

/-- Induction over an expression and the arguments of its calls. -/
@[elab_as_elim, induction_eliminator]
theorem induction
    {motive : Expr → Prop}
    (atom : ∀ truth text, motive (.atom truth text))
    (binary : ∀ truth operator lhs rhs,
      motive lhs → motive rhs → motive (.binary truth operator lhs rhs))
    (call : ∀ truth callee args,
      (∀ arg ∈ args, motive arg) → motive (.call truth callee args))
    (load : ∀ truth cell index,
      motive index → motive (.load truth cell index))
    (expr : Expr) : motive expr :=
  Expr.rec atom binary call load (by simp)
    (fun _ _ first others => List.forall_mem_cons.mpr ⟨first, others⟩) expr

mutual

/-- Every call in an expression goes to one of the given functions and has one
argument for each parameter. -/
@[simp]
def Linked (functions : List Callee) : Expr → Prop
  | .atom _ _ => True
  | .binary _ _ lhs rhs => lhs.Linked functions ∧ rhs.Linked functions
  | .call _ callee args =>
      callee ∈ functions ∧ args.length = callee.params.length ∧
        LinkedAll functions args
  | .load _ _ index => index.Linked functions

@[simp]
def LinkedAll (functions : List Callee) : List Expr → Prop
  | [] => True
  | first :: others => first.Linked functions ∧ LinkedAll functions others

end

theorem linkedAll_iff
    {functions : List Callee} {args : List Expr} :
    LinkedAll functions args ↔ ∀ arg ∈ args, arg.Linked functions := by
  induction args with
  | nil =>
      simp [LinkedAll]
  | cons first others inductionHypothesis =>
      simp [LinkedAll, inductionHypothesis]

end Expr

namespace Stmt

/-- Induction over a statement and the statements of its blocks. -/
@[elab_as_elim, induction_eliminator]
theorem induction
    {motive : Stmt → Prop}
    (assign : ∀ target value, motive (.assign target value))
    (store : ∀ cell index value, motive (.store cell index value))
    (ifThen : ∀ condition thenBranch,
      motive thenBranch → motive (.ifThen condition thenBranch))
    (ifElse : ∀ condition thenBranch elseBranch,
      motive thenBranch → motive elseBranch →
        motive (.ifElse condition thenBranch elseBranch))
    (loop : ∀ home exit condition body,
      motive body → motive (.loop home exit condition body))
    (ret : ∀ function value, motive (.ret function value))
    (jump : ∀ target, motive (.jump target))
    (raw : ∀ text, motive (.raw text))
    (block : ∀ body : List Stmt,
      (∀ stmt ∈ body, motive stmt) → motive (.block body))
    (empty : motive .empty)
    (stmt : Stmt) : motive stmt :=
  Stmt.rec assign store ifThen ifElse loop ret jump raw block empty (by simp)
    (fun _ _ first others => List.forall_mem_cons.mpr ⟨first, others⟩) stmt

/-- What is known of the parts of a statement: the names of variables and cells,
raw instructions, expressions whose value is stored or passed on, conditions,
and the function around the statement. -/
structure Parts where
  name : String → Prop
  raw : String → Prop
  value : Expr → Prop
  condition : Expr → Prop
  function : Option String

mutual

/-- The number of labels that reading a statement creates. -/
def loopLabels : Stmt → Nat
  | .ifThen _ thenBranch => thenBranch.loopLabels
  | .ifElse _ thenBranch elseBranch =>
      thenBranch.loopLabels + elseBranch.loopLabels
  | .loop _ _ _ body => body.loopLabels + 2
  | .block body => loopLabelsAll body
  | .assign .. | .store .. | .ret .. | .jump _ | .raw _ | .empty => 0

def loopLabelsAll : List Stmt → Nat
  | [] => 0
  | first :: others => first.loopLabels + loopLabelsAll others

end

mutual

/-- The homes and exits of the loops of a statement, in the order of the text. -/
def loopSites : Stmt → List Label
  | .ifThen _ thenBranch => thenBranch.loopSites
  | .ifElse _ thenBranch elseBranch =>
      thenBranch.loopSites ++ elseBranch.loopSites
  | .loop home exit _ body => home :: exit :: body.loopSites
  | .block body => loopSitesAll body
  | .assign .. | .store .. | .ret .. | .jump _ | .raw _ | .empty => []

def loopSitesAll : List Stmt → List Label
  | [] => []
  | first :: others => first.loopSites ++ loopSitesAll others

end

mutual

/-- The number of labels that the code of a statement creates: one for each
conditional with one branch and two for each with two. -/
def branchLabels : Stmt → Nat
  | .ifThen _ thenBranch => thenBranch.branchLabels + 1
  | .ifElse _ thenBranch elseBranch =>
      thenBranch.branchLabels + elseBranch.branchLabels + 2
  | .loop _ _ _ body => body.branchLabels
  | .block body => branchLabelsAll body
  | .assign .. | .store .. | .ret .. | .jump _ | .raw _ | .empty => 0

def branchLabelsAll : List Stmt → Nat
  | [] => 0
  | first :: others => first.branchLabels + branchLabelsAll others

end

mutual

/-- A statement has the form that reading gives it, where `loop` are the labels
of the innermost loop around it and `created` labels stand before it. -/
def Formed (parts : Parts) (loop : Option LoopLabels) (created : Nat) :
    Stmt → Prop
  | .assign target value => parts.name target ∧ parts.value value
  | .store cell index value =>
      parts.name cell ∧ parts.value index ∧ parts.value value
  | .ifThen condition thenBranch =>
      parts.condition condition ∧ thenBranch.Formed parts loop created
  | .ifElse condition thenBranch elseBranch =>
      parts.condition condition ∧ thenBranch.Formed parts loop created ∧
        elseBranch.Formed parts loop (created + thenBranch.loopLabels)
  | .loop home exit condition body =>
      home = ⟨created⟩ ∧ exit = ⟨created + 1⟩ ∧ parts.condition condition ∧
        body.Formed parts (some ⟨⟨created⟩, ⟨created + 1⟩⟩) (created + 2)
  | .ret function value =>
      parts.function = some function ∧ ∀ result ∈ value, parts.value result
  | .jump target =>
      ∃ labels, loop = some labels ∧
        (target = labels.home ∨ target = labels.exit)
  | .raw text => parts.raw text
  | .block body => FormedAll parts loop created body
  | .empty => True

def FormedAll (parts : Parts) (loop : Option LoopLabels) (created : Nat) :
    List Stmt → Prop
  | [] => True
  | first :: others =>
      first.Formed parts loop created ∧
        FormedAll parts loop (created + first.loopLabels) others

end

@[simp]
theorem loopLabelsAll_append (first second : List Stmt) :
    loopLabelsAll (first ++ second) =
      loopLabelsAll first + loopLabelsAll second := by
  induction first with
  | nil =>
      simp [loopLabelsAll]
  | cons head tail inductionHypothesis =>
      simp [loopLabelsAll, inductionHypothesis, Nat.add_assoc]

theorem formedAll_append
    {parts : Parts} {loop : Option LoopLabels} {created : Nat}
    {first second : List Stmt} :
    FormedAll parts loop created (first ++ second) ↔
      FormedAll parts loop created first ∧
        FormedAll parts loop (created + loopLabelsAll first) second := by
  induction first generalizing created with
  | nil =>
      simp [FormedAll, loopLabelsAll]
  | cons head tail inductionHypothesis =>
      simp only [List.cons_append, FormedAll, loopLabelsAll,
        inductionHypothesis, and_assoc, Nat.add_assoc]

end Stmt

theorem Callable.builtin?_eq_none_iff {name : String} :
    builtin? name = none ↔ name ∉ builtins.map Prod.fst := by
  simp only [builtin?, Option.map_eq_none_iff, List.find?_eq_none, beq_iff_eq,
    List.mem_map, not_exists, not_and]

namespace Function

/-- The number of labels that reading a function creates. -/
def labelCount (function : Function) : Nat :=
  Stmt.loopLabelsAll function.body + 1

/-- A function has the form that reading gives it, behind the functions
`earlier` and `created` labels. -/
structure Formed
    (parts : List Callee → Option String → Stmt.Parts)
    (earlier : List Function) (created : Nat) (function : Function) :
    Prop where
  name_not_mem : function.name ∉ earlier.map Function.name
  name_not_builtin : Callable.builtin? function.name = none
  params_nodup : function.params.Nodup
  names :
    ∀ name ∈ function.name :: function.params,
      (parts (earlier.map callee) (some function.name)).name name
  home : function.home = ⟨created + Stmt.loopLabelsAll function.body⟩
  body :
    Stmt.FormedAll (parts (earlier.map callee) (some function.name)) none
      created function.body
  returns : function.body.any Stmt.returns = true

def FormedAll
    (parts : List Callee → Option String → Stmt.Parts)
    (earlier : List Function) (created : Nat) : List Function → Prop
  | [] => True
  | first :: others =>
      first.Formed parts earlier created ∧
        FormedAll parts (earlier ++ [first]) (created + first.labelCount) others

def labelCountAll : List Function → Nat
  | [] => 0
  | first :: others => first.labelCount + labelCountAll others

@[simp]
theorem labelCountAll_append (first second : List Function) :
    labelCountAll (first ++ second) =
      labelCountAll first + labelCountAll second := by
  induction first with
  | nil =>
      simp [labelCountAll]
  | cons head tail inductionHypothesis =>
      simp [labelCountAll, inductionHypothesis, Nat.add_assoc]

end Function

namespace Program

structure Formed
    (parts : List Callee → Option String → Stmt.Parts) (program : Program) :
    Prop where
  functions : Function.FormedAll parts [] 0 program.functions
  main :
    Stmt.FormedAll (parts (program.functions.map Function.callee) none) none
      (Function.labelCountAll program.functions) program.main
  labels :
    program.labels =
      LabelTable.empty.createMany
        (Function.labelCountAll program.functions +
          Stmt.loopLabelsAll program.main)

/-- A function whose name is not taken above it is found by its name. -/
theorem function?_of_append
    {program : Program} {above below : List Function} {function : Function}
    (listed : program.functions = above ++ function :: below)
    (fresh : function.name ∉ above.map Function.name) :
    program.function? function.name = some function := by
  have absent :
      above.find? (fun other => other.name == function.name) = none := by
    rw [List.find?_eq_none]
    intro other member same
    apply fresh
    rw [← beq_iff_eq.mp same]
    exact List.mem_map_of_mem member
  rw [function?, listed, List.find?_append, absent, List.find?_cons]
  simp

end Program

/-! ## Words of a tree -/

namespace Expr

mutual

/-- The words of an expression.  The name of a called function is a word of its
definition. -/
@[simp]
def words : Expr → List String
  | .atom _ text => [text]
  | .binary _ _ lhs rhs => lhs.words ++ rhs.words
  | .call _ _ args => wordsAll args
  | .load _ cell index => cell :: index.words

@[simp]
def wordsAll : List Expr → List String
  | [] => []
  | first :: others => first.words ++ wordsAll others

end

theorem mem_wordsAll {args : List Expr} {word : String} :
    word ∈ wordsAll args ↔ ∃ arg ∈ args, word ∈ arg.words := by
  induction args with
  | nil =>
      simp [wordsAll]
  | cons first others inductionHypothesis =>
      simp [wordsAll, inductionHypothesis]

end Expr

namespace Stmt

mutual

def words : Stmt → List String
  | .assign target value => target :: value.words
  | .store cell index value => cell :: (index.words ++ value.words)
  | .ifThen condition thenBranch => condition.words ++ thenBranch.words
  | .ifElse condition thenBranch elseBranch =>
      condition.words ++ (thenBranch.words ++ elseBranch.words)
  | .loop _ _ condition body => condition.words ++ body.words
  | .ret _ (some value) => value.words
  | .block body => wordsAll body
  | .ret _ none | .jump _ | .raw _ | .empty => []

def wordsAll : List Stmt → List String
  | [] => []
  | first :: others => first.words ++ wordsAll others

end

mutual

def hasRaw : Stmt → Bool
  | .raw _ => true
  | .ifThen _ thenBranch => thenBranch.hasRaw
  | .ifElse _ thenBranch elseBranch => thenBranch.hasRaw || elseBranch.hasRaw
  | .loop _ _ _ body => body.hasRaw
  | .block body => anyRaw body
  | .assign .. | .store .. | .ret .. | .jump _ | .empty => false

def anyRaw : List Stmt → Bool
  | [] => false
  | first :: others => first.hasRaw || anyRaw others

end

end Stmt

namespace Function

/-- The words of a function, with its name and its parameters. -/
def words (function : Function) : List String :=
  function.name :: (function.params ++ Stmt.wordsAll function.body)

end Function

namespace Program

def words (program : Program) : List String :=
  program.functions.flatMap Function.words ++ Stmt.wordsAll program.main

def hasRaw (program : Program) : Bool :=
  program.functions.any (fun function => Stmt.anyRaw function.body) ||
    Stmt.anyRaw program.main

end Program

end FlatCode
