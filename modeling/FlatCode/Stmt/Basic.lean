import FlatCode.Expr.Basic

/-!
# Statements

Statements form a tree.  A loop carries the labels of its start and of the place
behind it, and the statements that leave or repeat a loop are jumps to these
labels.  A statement that returns carries the name of the function it leaves.
-/

namespace FlatCode

inductive Stmt where
  /-- Give a variable a value. -/
  | assign (target : String) (value : Expr)
  /-- Write a value into a memory cell. -/
  | store (cell : String) (index value : Expr)
  /-- Run a statement under a condition. -/
  | ifThen (condition : Expr) (thenBranch : Stmt)
  /-- Run one of two statements. -/
  | ifElse (condition : Expr) (thenBranch elseBranch : Stmt)
  /-- Repeat a statement under a condition; `home` is the place of the test and
  `exit` the place behind the loop. -/
  | loop (home exit : Label) (condition : Expr) (body : Stmt)
  /-- Leave a function, with a result or without. -/
  | ret (function : String) (value : Option Expr)
  /-- Go to a label. -/
  | jump (target : Label)
  /-- An instruction of the target, taken as it is. -/
  | raw (text : String)
  /-- Statements one after the other. -/
  | block (body : List Stmt)
  /-- Nothing. -/
  | empty
  deriving Repr

namespace Stmt

mutual

/-- A statement returns if it is a return, a choice between two statements that
both return, or a block with some statement that returns. -/
def returns : Stmt → Bool
  | .ret _ _ => true
  | .ifElse _ thenBranch elseBranch => thenBranch.returns && elseBranch.returns
  | .block body => anyReturns body
  | .assign .. | .store .. | .ifThen .. | .loop .. | .jump _ | .raw _
  | .empty => false

def anyReturns : List Stmt → Bool
  | [] => false
  | first :: others => first.returns || anyReturns others

end

@[simp]
theorem anyReturns_eq_any (body : List Stmt) :
    anyReturns body = body.any returns := by
  induction body with
  | nil =>
      simp [anyReturns]
  | cons first others inductionHypothesis =>
      simp [anyReturns, inductionHypothesis]

end Stmt

end FlatCode
