import FlatCode.Expr.Callable
import FlatCode.Token.Basic

/-!
# The grammar of the language

The grammar is given by its derivation trees and by one production for each way in
which tokens spell such a tree.  A production relates a tree to two token lists:
the tokens `before`, which begin with the tree, and the tokens `after`, which stand
behind it.  So a production can look at the token that comes next:

* an optional semicolon, and an optional `else`, is taken whenever it comes next;
* the expression at the end of a statement goes on whenever a binary operator
  comes next;
* `return` takes an expression exactly when the next token is a minus sign, a
  tilde, an exclamation mark, an opening parenthesis, an identifier or a number.

Not every derivation tree is a program.  `Program.Valid` says what else is asked:
where returns and loop controls stand, which names are taken, and what is called.
-/

namespace FlatCode.Surface

open Token (Kind)

/-! ## Derivation trees -/

/-- An expression as it is written. -/
inductive Expr where
  | number (text : String)
  | word (name : String)
  | index (cell : String) (inner : Expr)
  | call (name : String) (args : List Expr)
  /-- An expression in parentheses. -/
  | group (inner : Expr)
  /-- An operand behind a run of unary operators, which may be empty. -/
  | signed (signs : List Kind) (operand : Expr)
  | binary (sign : Kind) (lhs rhs : Expr)

inductive Stmt where
  | assign (target : String) (value : Expr)
  | store (cell : String) (index value : Expr)
  | ifThen (condition : Expr) (thenBranch : Stmt)
  | ifElse (condition : Expr) (thenBranch elseBranch : Stmt)
  | loop (condition : Expr) (body : Stmt)
  | ret (value : Option Expr)
  /-- The statement `break`. -/
  | leave
  /-- The statement `continue`. -/
  | again
  | raw (text : String)
  | block (body : List Stmt)
  | empty

structure Function where
  name : String
  params : List String
  body : List Stmt

structure Program where
  functions : List Function
  main : List Stmt

/-! ## Expressions -/

/-- The signs of the binary operators by precedence, those that bind least
first. -/
def binaryLevels : List (List Kind) :=
  [[.logicalOr], [.logicalAnd], [.bitOr], [.bitXor], [.bitAnd], [.eq, .ne],
    [.lt, .gt, .le, .ge], [.shl, .shr], [.plus, .minus],
    [.star, .slash, .percent, .slashSlash], [.starStar]]

def unarySigns : List Kind :=
  [.plus, .minus, .bitNot, .logicalNot]

/-- The kinds of tokens behind `return` with which a result starts. -/
def resultStarts : List Kind :=
  [.minus, .bitNot, .logicalNot, .lparen, .identifier, .number]

/-- The kind of the token that comes next.  Behind the last token of a list stands
the end of the input. -/
def nextKind : List Token → Kind
  | [] => .eof
  | token :: _ => token.kind

/-- The tokens start with a run of unary operators. -/
inductive SignsDerive : List Kind → List Token → List Token → Prop
  | nil (after : List Token) : SignsDerive [] after after
  | cons {token : Token} {signs : List Kind} {rest after : List Token} :
      token.kind ∈ unarySigns → SignsDerive signs rest after →
        SignsDerive (token.kind :: signs) (token :: rest) after

mutual

/-- The tokens start with an expression of the given levels. -/
inductive LevelDerives :
    List (List Kind) → Expr → List Token → List Token → Prop
  | signed {signs : List Kind} {operand : Expr}
      {before middle after : List Token} :
      SignsDerive signs before middle → OperandDerives operand middle after →
        LevelDerives [] (.signed signs operand) before after
  | tighter (level : List Kind) {levels : List (List Kind)} {expr : Expr}
      {before after : List Token} :
      LevelDerives levels expr before after →
        LevelDerives (level :: levels) expr before after
  | binary {level : List Kind} {levels : List (List Kind)} {lhs rhs : Expr}
      {sign : Token} {before middle after : List Token} :
      LevelDerives (level :: levels) lhs before (sign :: middle) →
        sign.kind ∈ level → LevelDerives levels rhs middle after →
          LevelDerives (level :: levels) (.binary sign.kind lhs rhs)
            before after

/-- The tokens start with an operand. -/
inductive OperandDerives : Expr → List Token → List Token → Prop
  | number {token : Token} (after : List Token) :
      token.kind = .number →
        OperandDerives (.number token.payload) (token :: after) after
  | word {token : Token} (after : List Token) :
      token.kind = .identifier →
        OperandDerives (.word token.payload) (token :: after) after
  | index {name opening close : Token} {inner : Expr}
      {rest after : List Token} :
      name.kind = .identifier → opening.kind = .lbracket →
        LevelDerives binaryLevels inner rest (close :: after) →
          close.kind = .rbracket →
            OperandDerives (.index name.payload inner)
              (name :: opening :: rest) after
  | callEmpty {name opening close : Token} (after : List Token) :
      name.kind = .identifier → opening.kind = .lparen →
        close.kind = .rparen →
          OperandDerives (.call name.payload [])
            (name :: opening :: close :: after) after
  | call {name opening close : Token} {args : List Expr}
      {rest after : List Token} :
      name.kind = .identifier → opening.kind = .lparen →
        ArgumentsDerive args rest (close :: after) → close.kind = .rparen →
          OperandDerives (.call name.payload args)
            (name :: opening :: rest) after
  | group {opening close : Token} {inner : Expr} {rest after : List Token} :
      opening.kind = .lparen →
        LevelDerives binaryLevels inner rest (close :: after) →
          close.kind = .rparen →
            OperandDerives (.group inner) (opening :: rest) after

/-- The tokens start with one or more expressions with commas between them. -/
inductive ArgumentsDerive : List Expr → List Token → List Token → Prop
  | last {expr : Expr} {before after : List Token} :
      LevelDerives binaryLevels expr before after →
        ArgumentsDerive [expr] before after
  | more {expr : Expr} {others : List Expr} {comma : Token}
      {before rest after : List Token} :
      LevelDerives binaryLevels expr before (comma :: rest) →
        comma.kind = .comma → ArgumentsDerive others rest after →
          ArgumentsDerive (expr :: others) before after

end

/-- The tokens start with an expression that ends a statement, and no binary
operator comes next. -/
def ValueDerives (expr : Expr) (before after : List Token) : Prop :=
  LevelDerives binaryLevels expr before after ∧
    nextKind after ∉ binaryLevels.flatten

/-! ## Statements -/

/-- A semicolon is taken exactly if it comes next. -/
inductive SemicolonDerives : List Token → List Token → Prop
  | taken {token : Token} (after : List Token) :
      token.kind = .semicolon → SemicolonDerives (token :: after) after
  | absent {after : List Token} :
      nextKind after ≠ .semicolon → SemicolonDerives after after

mutual

/-- The tokens start with a statement. -/
inductive StmtDerives : Stmt → List Token → List Token → Prop
  | assign {name sign : Token} {value : Expr}
      {rest middle after : List Token} :
      name.kind = .identifier → sign.kind = .assign →
        ValueDerives value rest middle → SemicolonDerives middle after →
          StmtDerives (.assign name.payload value)
            (name :: sign :: rest) after
  | store {name opening close sign : Token} {index value : Expr}
      {rest behind middle after : List Token} :
      name.kind = .identifier → opening.kind = .lbracket →
        LevelDerives binaryLevels index rest (close :: sign :: behind) →
          close.kind = .rbracket → sign.kind = .assign →
            ValueDerives value behind middle → SemicolonDerives middle after →
              StmtDerives (.store name.payload index value)
                (name :: opening :: rest) after
  | ifThen {word opening close : Token} {condition : Expr}
      {thenBranch : Stmt} {rest behind after : List Token} :
      word.kind = .kwIf → opening.kind = .lparen →
        LevelDerives binaryLevels condition rest (close :: behind) →
          close.kind = .rparen → StmtDerives thenBranch behind after →
            nextKind after ≠ .kwElse →
              StmtDerives (.ifThen condition thenBranch)
                (word :: opening :: rest) after
  | ifElse {word opening close between : Token} {condition : Expr}
      {thenBranch elseBranch : Stmt} {rest behind later after : List Token} :
      word.kind = .kwIf → opening.kind = .lparen →
        LevelDerives binaryLevels condition rest (close :: behind) →
          close.kind = .rparen →
            StmtDerives thenBranch behind (between :: later) →
              between.kind = .kwElse → StmtDerives elseBranch later after →
                StmtDerives (.ifElse condition thenBranch elseBranch)
                  (word :: opening :: rest) after
  | loop {word opening close : Token} {condition : Expr} {body : Stmt}
      {rest behind after : List Token} :
      word.kind = .kwWhile → opening.kind = .lparen →
        LevelDerives binaryLevels condition rest (close :: behind) →
          close.kind = .rparen → StmtDerives body behind after →
            StmtDerives (.loop condition body) (word :: opening :: rest) after
  | ret {word : Token} {rest after : List Token} :
      word.kind = .kwReturn → nextKind rest ∉ resultStarts →
        SemicolonDerives rest after →
          StmtDerives (.ret none) (word :: rest) after
  | retValue {word : Token} {value : Expr} {rest middle after : List Token} :
      word.kind = .kwReturn → nextKind rest ∈ resultStarts →
        ValueDerives value rest middle → SemicolonDerives middle after →
          StmtDerives (.ret (some value)) (word :: rest) after
  | leave {word : Token} {rest after : List Token} :
      word.kind = .kwBreak → SemicolonDerives rest after →
        StmtDerives .leave (word :: rest) after
  | again {word : Token} {rest after : List Token} :
      word.kind = .kwContinue → SemicolonDerives rest after →
        StmtDerives .again (word :: rest) after
  | raw {token : Token} (after : List Token) :
      token.kind = .raw →
        StmtDerives (.raw token.payload) (token :: after) after
  | block {opening close : Token} {body : List Stmt}
      {rest after : List Token} :
      opening.kind = .lbrace → StmtsDerive body rest (close :: after) →
        close.kind = .rbrace →
          StmtDerives (.block body) (opening :: rest) after
  | empty {token : Token} (after : List Token) :
      token.kind = .semicolon → StmtDerives .empty (token :: after) after

inductive StmtsDerive : List Stmt → List Token → List Token → Prop
  | nil (after : List Token) : StmtsDerive [] after after
  | cons {first : Stmt} {others : List Stmt}
      {before middle after : List Token} :
      StmtDerives first before middle → StmtsDerive others middle after →
        StmtsDerive (first :: others) before after

end

/-! ## Functions and programs -/

inductive ParamsDerive : List String → List Token → List Token → Prop
  | last {name : Token} (after : List Token) :
      name.kind = .identifier →
        ParamsDerive [name.payload] (name :: after) after
  | more {name comma : Token} {others : List String}
      {rest after : List Token} :
      name.kind = .identifier → comma.kind = .comma →
        ParamsDerive others rest after →
          ParamsDerive (name.payload :: others) (name :: comma :: rest) after

inductive SignatureDerives : List String → List Token → List Token → Prop
  | none {opening close : Token} (after : List Token) :
      opening.kind = .lparen → close.kind = .rparen →
        SignatureDerives [] (opening :: close :: after) after
  | some {opening close : Token} {params : List String}
      {rest after : List Token} :
      opening.kind = .lparen → ParamsDerive params rest (close :: after) →
        close.kind = .rparen →
          SignatureDerives params (opening :: rest) after

inductive FunctionDerives : Function → List Token → List Token → Prop
  | mk {word name opening close : Token} {params : List String}
      {body : List Stmt} {rest behind after : List Token} :
      word.kind = .kwDef → name.kind = .identifier →
        SignatureDerives params rest (opening :: behind) →
          opening.kind = .lbrace → StmtsDerive body behind (close :: after) →
            close.kind = .rbrace →
              FunctionDerives ⟨name.payload, params, body⟩
                (word :: name :: rest) after

inductive FunctionsDerive : List Function → List Token → List Token → Prop
  | nil (after : List Token) : FunctionsDerive [] after after
  | cons {first : Function} {others : List Function}
      {before middle after : List Token} :
      FunctionDerives first before middle →
        FunctionsDerive others middle after →
          FunctionsDerive (first :: others) before after

/-- A token sequence with the end of the input as its last token is derived from
the grammar by a tree. -/
def Program.Derives (program : Program) (sequence : List Token) : Prop :=
  ∃ tokens last middle,
    sequence = tokens ++ [last] ∧ last.kind = .eof ∧
      FunctionsDerive program.functions tokens middle ∧
        StmtsDerive program.main middle []

/-! ## What is asked of a derivation -/

namespace Expr

mutual

/-- The calls in an expression: the called names and the numbers of arguments. -/
@[simp]
def calls : Expr → List (String × Nat)
  | .number _ | .word _ => []
  | .index _ inner => inner.calls
  | .call name args => (name, args.length) :: callsAll args
  | .group inner => inner.calls
  | .signed _ operand => operand.calls
  | .binary _ lhs rhs => lhs.calls ++ rhs.calls

@[simp]
def callsAll : List Expr → List (String × Nat)
  | [] => []
  | first :: others => first.calls ++ callsAll others

end

end Expr

namespace Stmt

mutual

@[simp]
def calls : Stmt → List (String × Nat)
  | .assign _ value => value.calls
  | .store _ index value => index.calls ++ value.calls
  | .ifThen condition thenBranch => condition.calls ++ thenBranch.calls
  | .ifElse condition thenBranch elseBranch =>
      condition.calls ++ (thenBranch.calls ++ elseBranch.calls)
  | .loop condition body => condition.calls ++ body.calls
  | .ret (some value) => value.calls
  | .block body => callsAll body
  | .ret none | .leave | .again | .raw _ | .empty => []

@[simp]
def callsAll : List Stmt → List (String × Nat)
  | [] => []
  | first :: others => first.calls ++ callsAll others

end

mutual

/-- Every return stands in a function and every loop control in a loop, where
`inFunction` and `inLoop` tell what stands around the statement. -/
@[simp]
def Placed (inFunction inLoop : Bool) : Stmt → Prop
  | .ifThen _ thenBranch => thenBranch.Placed inFunction inLoop
  | .ifElse _ thenBranch elseBranch =>
      thenBranch.Placed inFunction inLoop ∧
        elseBranch.Placed inFunction inLoop
  | .loop _ body => body.Placed inFunction true
  | .ret _ => inFunction = true
  | .leave | .again => inLoop = true
  | .block body => PlacedAll inFunction inLoop body
  | .assign .. | .store .. | .raw _ | .empty => True

@[simp]
def PlacedAll (inFunction inLoop : Bool) : List Stmt → Prop
  | [] => True
  | first :: others =>
      first.Placed inFunction inLoop ∧ PlacedAll inFunction inLoop others

end

end Stmt

/-- A call by its name and its number of arguments goes to one of the given
functions or to a builtin. -/
def Known (functions : List Function) (call : String × Nat) : Prop :=
  (∃ function ∈ functions,
      function.name = call.1 ∧ function.params.length = call.2) ∨
    ∃ callable,
      (call.1, callable) ∈ Callable.builtins ∧ callable.arity = call.2

/-- What is asked of a derivation tree apart from its spelling. -/
structure Program.Valid (program : Program) : Prop where
  /-- No function is defined twice. -/
  names_nodup : (program.functions.map Function.name).Nodup
  /-- No function has the name of a builtin. -/
  name_not_builtin : ∀ function ∈ program.functions,
    function.name ∉ Callable.builtins.map Prod.fst
  /-- No function has two parameters of one name. -/
  params_nodup : ∀ function ∈ program.functions, function.params.Nodup
  /-- A return is allowed in a function, and a loop control in a loop only. -/
  body_placed : ∀ function ∈ program.functions,
    Stmt.PlacedAll true false function.body
  /-- Outside of functions no return is allowed. -/
  main_placed : Stmt.PlacedAll false false program.main
  /-- A function calls builtins and the functions above it, with the right number
  of arguments. -/
  body_known : ∀ above function below,
    program.functions = above ++ function :: below →
      ∀ call ∈ Stmt.callsAll function.body, Known above call
  /-- The main statements call builtins and functions, with the right number of
  arguments. -/
  main_known : ∀ call ∈ Stmt.callsAll program.main,
    Known program.functions call

end FlatCode.Surface
