import FlatCode.Lowering.Expr
import FlatCode.Program.Basic

/-!
# Code of statements

Code with labels is a list of entries: a label is created, a label is placed
before the next instruction, or an instruction is emitted.  The layout of the
statements with labels is

| statement  | entries                                                       |
|------------|---------------------------------------------------------------|
| `ifThen`   | create the exit, jump to it unless the condition holds, the   |
|            | branch, place the exit                                        |
| `ifElse`   | create the label of the second branch and the exit, jump to   |
|            | the former unless the condition holds, the first branch, jump |
|            | to the exit, place the former, the second branch, place the   |
|            | exit                                                          |
| `loop`     | place the home, jump to the exit unless the condition holds,  |
|            | the body, jump to the home, place the exit                    |

The main statements come first.  If there are functions, an instruction that
stops the machine stands before the first of them, and each function starts with
its home label.
-/

namespace FlatCode

/-- One entry of code with labels. -/
inductive Entry where
  /-- The next label comes into being. -/
  | create
  /-- A label stands for the address of the next instruction. -/
  | place (label : Label)
  /-- An instruction. -/
  | emit (instruction : Instruction)
  deriving DecidableEq, Repr

/-- The numbers of labels and of temporaries in use. -/
structure Supply where
  labels : Nat
  temps : Nat
  deriving DecidableEq, Repr

def emitAll (code : List Instruction) : List Entry :=
  code.map .emit

namespace Stmt

mutual

/-- The code of a statement and the supply behind it. -/
def lower (supply : Supply) : Stmt → List Entry × Supply
  | .assign target value =>
      let stored := value.lower (.into (.word target)) supply.temps
      (emitAll stored.code, { supply with temps := stored.temps })
  | .store cell index value =>
      let stored := value.lower .anywhere supply.temps
      let place := index.lower .anywhere stored.temps
      (emitAll
          (stored.code ++ (place.code ++
            [.write stored.operand (.word cell) place.operand])),
        { supply with temps := place.temps })
  | .ifThen condition thenBranch =>
      let exit : Label := ⟨supply.labels⟩
      let (test, temps) := condition.lowerCondition exit true supply.temps
      let (branch, after) := thenBranch.lower ⟨supply.labels + 1, temps⟩
      ([.create] ++ (emitAll test ++ (branch ++ [.place exit])), after)
  | .ifElse condition thenBranch elseBranch =>
      let otherwise : Label := ⟨supply.labels⟩
      let exit : Label := ⟨supply.labels + 1⟩
      let (test, temps) := condition.lowerCondition otherwise true supply.temps
      let (first, between) := thenBranch.lower ⟨supply.labels + 2, temps⟩
      let (second, after) := elseBranch.lower between
      ([.create, .create] ++ (emitAll test ++ (first ++
          ([.emit (.jump exit .always), .place otherwise] ++
            (second ++ [.place exit])))),
        after)
  | .loop home exit condition body =>
      let (test, temps) := condition.lowerCondition exit true supply.temps
      let (repeated, after) := body.lower { supply with temps := temps }
      ([.place home] ++ (emitAll test ++ (repeated ++
          [.emit (.jump home .always), .place exit])),
        after)
  | .ret function value =>
      let (result, temps) :=
        match value with
        | none => ([], supply.temps)
        | some value =>
            let stored := value.lower (.into (.result function)) supply.temps
            (stored.code, stored.temps)
      (emitAll (result ++ [.set .counter (.resume function)]),
        { supply with temps := temps })
  | .jump target => ([.emit (.jump target .always)], supply)
  | .raw text => ([.emit (.raw text)], supply)
  | .block body => lowerAll supply body
  | .empty => ([], supply)

def lowerAll (supply : Supply) : List Stmt → List Entry × Supply
  | [] => ([], supply)
  | first :: others =>
      let (code, between) := first.lower supply
      let (rest, after) := lowerAll between others
      (code ++ rest, after)

end

end Stmt

namespace Function

/-- The code of a function behind its home label. -/
def lower (supply : Supply) (function : Function) : List Entry × Supply :=
  let (body, after) := Stmt.lowerAll supply function.body
  (.place function.home :: body, after)

def lowerAll (supply : Supply) : List Function → List Entry × Supply
  | [] => ([], supply)
  | first :: others =>
      let (code, between) := first.lower supply
      let (rest, after) := lowerAll between others
      (code ++ rest, after)

end Function

namespace Program

def lower (program : Program) : List Entry :=
  let (main, between) :=
    Stmt.lowerAll ⟨program.labels.created, 0⟩ program.main
  match program.functions with
  | [] => main
  | functions =>
      main ++ (.emit .halt :: (Function.lowerAll between functions).1)

end Program

end FlatCode
