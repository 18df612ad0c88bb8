import FlatCode.Program.Parser
import FlatCode.Proofs.Grammar.Derivation

/-!
# The tree of a derivation

A derivation tree is turned into the tree of a program from its leaves upwards:
names are resolved, labels are numbered in the order of the text, and values that
are stored or passed on are normalized.  This fails exactly where a derivation is
not valid.

How an operation, a unary operator and a call are put together from their operands
is left open as a `Builder`.  Reading uses `Builder.reading`.
-/

namespace FlatCode.Surface

open Token (Kind)

/-- How an expression is put together from its operands. -/
structure Builder where
  combine : Level → Operator → FlatCode.Expr → FlatCode.Expr → FlatCode.Expr
  unary : Unary → FlatCode.Expr → FlatCode.Expr
  call? : Callable → List FlatCode.Expr → Option FlatCode.Expr

namespace Builder

def reading : Builder :=
  ⟨Level.combine, Unary.apply, Callable.call?⟩

/-- Apply a run of unary operators to an operand, the operator next to it
first. -/
def unaryAll
    (builder : Builder) (run : List Unary) (operand : FlatCode.Expr) :
    FlatCode.Expr :=
  run.foldl (fun expr unary => builder.unary unary expr) operand

end Builder

def extendRun (run : List Unary) (sign : Kind) : List Unary :=
  (Unary.extend? run sign).getD run

/-- The level and the operator that a sign stands for. -/
def levelOf? (sign : Kind) : Option (Level × Operator) :=
  Level.table.findSome? fun level =>
    (level.operator? sign).map fun operator => (level, operator)

namespace Expr

mutual

/-- The tree of an expression, where the given functions are in reach. -/
@[simp]
def build (builder : Builder) (functions : List Callee) :
    Expr → Option FlatCode.Expr
  | .number text => some (.ofText text)
  | .word name => some (.ofText name)
  | .index cell inner => do
      let index ← inner.build builder functions
      some (.ofLoad cell index.normalize)
  | .call name args => do
      let callable ← Callable.resolve? functions name
      let values ← buildAll builder functions args
      builder.call? callable (values.map FlatCode.Expr.normalize)
  | .group inner => inner.build builder functions
  | .signed signs operand => do
      let value ← operand.build builder functions
      some (builder.unaryAll (signs.foldl extendRun []) value)
  | .binary sign lhs rhs => do
      let (level, operator) ← levelOf? sign
      let left ← lhs.build builder functions
      let right ← rhs.build builder functions
      some (builder.combine level operator left right)

@[simp]
def buildAll (builder : Builder) (functions : List Callee) :
    List Expr → Option (List FlatCode.Expr)
  | [] => some []
  | first :: others => do
      let value ← first.build builder functions
      let values ← buildAll builder functions others
      some (value :: values)

end

end Expr

/-- What a statement is built in: the functions in reach, the function around it
and the innermost loop around it. -/
structure Surroundings where
  functions : List Callee
  function : Option String
  loop : Option FlatCode.Stmt.LoopLabels

namespace Stmt

open FlatCode.Stmt (Numbered)

mutual

/-- The tree of a statement, with `created` labels in use already. -/
@[simp]
def build (builder : Builder) (around : Surroundings) (created : Nat) :
    Stmt → Option (Numbered FlatCode.Stmt)
  | .assign target value => do
      let built ← value.build builder around.functions
      some (.assign target built.normalize, created)
  | .store cell index value => do
      let place ← index.build builder around.functions
      let built ← value.build builder around.functions
      some (.store cell place.normalize built.normalize, created)
  | .ifThen condition thenBranch => do
      let test ← condition.build builder around.functions
      let first ← thenBranch.build builder around created
      some (.ifThen test first.1, first.2)
  | .ifElse condition thenBranch elseBranch => do
      let test ← condition.build builder around.functions
      let first ← thenBranch.build builder around created
      let second ← elseBranch.build builder around first.2
      some (.ifElse test first.1 second.1, second.2)
  | .loop condition body => do
      let test ← condition.build builder around.functions
      let repeated ←
        body.build builder
          { around with loop := some ⟨⟨created⟩, ⟨created + 1⟩⟩ } (created + 2)
      some (.loop ⟨created⟩ ⟨created + 1⟩ test repeated.1, repeated.2)
  | .ret none => do
      let function ← around.function
      some (.ret function none, created)
  | .ret (some value) => do
      let function ← around.function
      let built ← value.build builder around.functions
      some (.ret function (some built.normalize), created)
  | .leave => do
      let labels ← around.loop
      some (.jump labels.exit, created)
  | .again => do
      let labels ← around.loop
      some (.jump labels.home, created)
  | .raw text => some (.raw text, created)
  | .block body => do
      let built ← buildAll builder around created body
      some (.block built.1, built.2)
  | .empty => some (.empty, created)

@[simp]
def buildAll (builder : Builder) (around : Surroundings) (created : Nat) :
    List Stmt → Option (Numbered (List FlatCode.Stmt))
  | [] => some ([], created)
  | first :: others => do
      let built ← first.build builder around created
      let rest ← buildAll builder around built.2 others
      some (built.1 :: rest.1, rest.2)

end

end Stmt

namespace Function

open FlatCode.Stmt (Numbered)

/-- The name of a function is free behind the given functions, and its parameters
are distinct. -/
def Fresh (functions : List FlatCode.Function) (function : Function) : Prop :=
  function.name ∉ functions.map FlatCode.Function.name ∧
    Callable.builtin? function.name = none ∧ function.params.Nodup

instance (functions : List FlatCode.Function) (function : Function) :
    Decidable (function.Fresh functions) :=
  inferInstanceAs (Decidable (_ ∧ _ ∧ _))

def build (builder : Builder) (functions : List FlatCode.Function)
    (created : Nat) (function : Function) :
    Option (Numbered FlatCode.Function) :=
  if function.Fresh functions then do
    let body ←
      Stmt.buildAll builder
        ⟨functions.map FlatCode.Function.callee, some function.name, none⟩
        created function.body
    some
      (⟨function.name, function.params, ⟨body.2⟩,
          FlatCode.Function.closeBody function.name body.1⟩,
        body.2 + 1)
  else
    none

def buildAll (builder : Builder) (functions : List FlatCode.Function)
    (created : Nat) :
    List Function → Option (Numbered (List FlatCode.Function))
  | [] => some (functions, created)
  | first :: others => do
      let built ← first.build builder functions created
      buildAll builder (functions ++ [built.1]) built.2 others

end Function

def Program.build (builder : Builder) (program : Program) :
    Option FlatCode.Program := do
  let functions ← Function.buildAll builder [] 0 program.functions
  let main ←
    Stmt.buildAll builder
      ⟨functions.1.map FlatCode.Function.callee, none, none⟩
      functions.2 program.main
  some ⟨functions.1, main.1, LabelTable.empty.createMany main.2⟩

end FlatCode.Surface
