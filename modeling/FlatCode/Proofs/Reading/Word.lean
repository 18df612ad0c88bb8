import FlatCode.Proofs.Reading.Link
import FlatCode.Proofs.Token.Spelling

/-!
# The words of a program

The words of a program are the identifiers and literals in it, and they are
spelled as such.  So none of them starts with a dollar sign, and a variable that
code uses for itself is never mentioned by the source.

A program is *plain* if it has no raw instruction and does not mention the
address counter of the machine.  Only of such a program can be said what its code
does.
-/

namespace FlatCode

/-- A text that does not start with a dollar sign. -/
def Undollared (text : String) : Prop :=
  text.toList.head? ≠ some '$'

instance : DecidablePred Undollared := fun text =>
  inferInstanceAs (Decidable (text.toList.head? ≠ some '$'))

theorem Spelled.undollared {text : String} (spelled : Spelled text) :
    Undollared text := by
  intro dollar
  have spelling := spelled.2 '$' (List.mem_of_head? dollar)
  revert spelling
  decide

/-! ## Words of a tree -/

namespace Expr

section Spelled

@[simp]
theorem words_withTruth (truth : Truth) (expr : Expr) :
    (expr.withTruth truth).words = expr.words := by
  cases expr <;> simp [words]

@[simp]
theorem words_wantTruth (expr : Expr) : expr.wantTruth.words = expr.words :=
  words_withTruth _ expr

def Spelled (expr : Expr) : Prop :=
  ∀ word ∈ expr.words, FlatCode.Spelled word

theorem spelled_zero : zero.Spelled := by
  simp only [Spelled, zero, words, List.forall_mem_singleton]
  decide

theorem spelled_binary
    (truth : Truth) (operator : Operator) {lhs rhs : Expr}
    (left : lhs.Spelled) (right : rhs.Spelled) :
    (Expr.binary truth operator lhs rhs).Spelled := by
  simp only [Spelled, words]
  exact List.forall_mem_append.mpr ⟨left, right⟩

theorem spelled_wantTruth
    {expr : Expr} (spelled : expr.Spelled) :
    expr.wantTruth.Spelled := by
  simpa [Spelled] using spelled

theorem spelled_normalize
    {expr : Expr} (spelled : expr.Spelled) :
    expr.normalize.Spelled := by
  unfold normalize
  split
  · exact spelled_binary _ _ spelled spelled_zero
  · exact spelled

theorem spelled_combine
    (operator : Operator) (strict : Option Bool) (normalizes : Bool)
    {lhs rhs : Expr} (left : lhs.Spelled) (right : rhs.Spelled) :
    (combine operator strict normalizes lhs rhs).Spelled := by
  unfold combine
  split
  · exact
      spelled_binary _ _ (spelled_normalize left)
        (spelled_normalize right)
  · exact spelled_binary _ _ left right

theorem spelled_call?
    {callable : Callable} {args : List Expr} {result : Expr}
    (spelled : ∀ arg ∈ args, arg.Spelled)
    (called : callable.call? args = some result) :
    result.Spelled := by
  unfold Callable.call? at called
  split at called
  · split at called
    · cases called
      intro word member
      simp only [ofCall, words] at member
      obtain ⟨arg, argMember, inside⟩ := mem_wordsAll.mp member
      exact spelled arg argMember word inside
    · cases called
  · next argument =>
      have argumentSpelled := spelled argument List.mem_cons_self
      split at called
      · cases called
        exact argumentSpelled
      · cases called
        exact spelled_combine _ _ _ argumentSpelled spelled_zero
  · next first second =>
      cases called
      exact
        spelled_combine _ _ _ (spelled first (by simp))
          (spelled second (by simp))
  · cases called

/-- Reading puts nothing but identifiers and numbers into an expression. -/
theorem inherited_spelled (functions : List Callee) :
    Inherited functions Token.Written Spelled where
  atom token known isOpen := by
    simpa [Spelled, ofText, words] using known.word isOpen
  combine level _ kind operator _ lhs rhs left right := by
    unfold Level.combine
    dsimp only
    split
    · exact spelled_wantTruth (spelled_combine _ _ _ left right)
    · exact spelled_combine _ _ _ left right
  unary unary operand spelled := by
    cases unary with
    | negate =>
        exact spelled_combine _ _ _ spelled_zero spelled
    | flipBits =>
        exact spelled_combine _ _ _ spelled spelled_zero
    | isFalse | isTrue =>
        exact
          spelled_wantTruth
            (spelled_combine _ _ _ spelled spelled_zero)
  load token known isIdentifier index spelled := by
    simp only [Spelled, ofLoad, words]
    exact
      List.forall_mem_cons.mpr
        ⟨known.word (Or.inr isIdentifier), spelled_normalize spelled⟩
  call name callable _ args spelled result called := by
    refine spelled_call? ?_ called
    intro arg member
    obtain ⟨loose, looseMember, rfl⟩ := List.mem_map.mp member
    exact spelled_normalize (spelled loose looseMember)

end Spelled

end Expr

/-! ## Plain programs -/

def PlainWord (text : String) : Prop :=
  Undollared text ∧ text ≠ "@counter"

structure Expr.Plain (functions : List Callee) (expr : Expr) : Prop where
  linked : expr.Linked functions
  words : ∀ word ∈ expr.words, PlainWord word

namespace Expr

variable {callees : List Callee} {truth : Truth}

theorem Plain.left
    {operator : Operator} {lhs rhs : Expr}
    (plain : (Expr.binary truth operator lhs rhs).Plain callees) :
    lhs.Plain callees :=
  ⟨plain.linked.1, fun word member =>
    plain.words word (by simp [Expr.words, member])⟩

theorem Plain.right
    {operator : Operator} {lhs rhs : Expr}
    (plain : (Expr.binary truth operator lhs rhs).Plain callees) :
    rhs.Plain callees :=
  ⟨plain.linked.2, fun word member =>
    plain.words word (by simp [Expr.words, member])⟩

theorem Plain.argument
    {callee : Callee} {args : List Expr}
    (plain : (Expr.call truth callee args).Plain callees) {arg : Expr}
    (member : arg ∈ args) :
    arg.Plain callees := by
  refine ⟨linkedAll_iff.mp plain.linked.2.2 arg member, ?_⟩
  intro word inside
  refine plain.words word ?_
  rw [Expr.words]
  exact mem_wordsAll.mpr ⟨arg, member, inside⟩

theorem Plain.index
    {cell : String} {index : Expr}
    (plain : (Expr.load truth cell index).Plain callees) :
    index.Plain callees :=
  ⟨plain.linked, fun word member =>
    plain.words word (by simp [Expr.words, member])⟩

end Expr

namespace Program

def plainParts (functions : List Callee) (function : Option String) :
    Stmt.Parts where
  name := PlainWord
  raw _ := False
  value := Expr.Plain functions
  condition := Expr.Plain functions
  function := function

/-- The parts of a program that was read, with the words in them. -/
def wordedParts (functions : List Callee) (function : Option String) :
    Stmt.Parts :=
  readParts Token.Written
    (fun functions expr => expr.Linked functions ∧ expr.Spelled)
    functions function

section Parts

variable {functions : List Callee} {function : Option String}

theorem plain_of_value
    {expr : Expr} (value : (wordedParts functions function).value expr)
    (uncounted : "@counter" ∉ expr.words) :
    expr.Plain functions := by
  obtain ⟨loose, ⟨linked, spelled⟩, rfl⟩ := value
  refine ⟨(Expr.linked_normalize loose).mpr linked, ?_⟩
  intro word member
  refine ⟨(Expr.spelled_normalize spelled word member).undollared, ?_⟩
  rintro rfl
  exact uncounted member

theorem plain_of_condition
    {expr : Expr} (condition : (wordedParts functions function).condition expr)
    (uncounted : "@counter" ∉ expr.words) :
    expr.Plain functions := by
  refine ⟨condition.1, ?_⟩
  intro word member
  refine ⟨(condition.2 word member).undollared, ?_⟩
  rintro rfl
  exact uncounted member

theorem plain_of_name
    {text : String} (name : (wordedParts functions function).name text)
    (uncounted : "@counter" ≠ text) :
    PlainWord text := by
  obtain ⟨token, written, isIdentifier, rfl⟩ := name
  exact ⟨(written.word (Or.inr isIdentifier)).undollared, uncounted.symm⟩

end Parts

end Program

namespace Stmt

variable {functions : List Callee} {function : Option String}

open Program (plainParts wordedParts plain_of_value plain_of_condition
  plain_of_name)

mutual

theorem formed_plain :
    ∀ (stmt : Stmt) (around : Option LoopLabels) (created : Nat),
      stmt.Formed (wordedParts functions function) around created →
        "@counter" ∉ stmt.words → stmt.hasRaw = false →
          stmt.Formed (plainParts functions function) around created
  | .assign target value, around, created, formed, uncounted, _ => by
      simp only [words, List.mem_cons, not_or] at uncounted
      exact
        ⟨plain_of_name formed.1 uncounted.1,
          plain_of_value formed.2 uncounted.2⟩
  | .store cell index value, around, created, formed, uncounted, _ => by
      simp only [words, List.mem_cons, List.mem_append, not_or] at uncounted
      exact
        ⟨plain_of_name formed.1 uncounted.1,
          plain_of_value formed.2.1 uncounted.2.1,
          plain_of_value formed.2.2 uncounted.2.2⟩
  | .ifThen condition thenBranch, around, created, formed, uncounted,
      unraw => by
      simp only [words, List.mem_append, not_or] at uncounted
      exact
        ⟨plain_of_condition formed.1 uncounted.1,
          formed_plain thenBranch around created formed.2 uncounted.2 unraw⟩
  | .ifElse condition thenBranch elseBranch, around, created, formed,
      uncounted, unraw => by
      simp only [words, List.mem_append, not_or] at uncounted
      simp only [hasRaw, Bool.or_eq_false_iff] at unraw
      exact
        ⟨plain_of_condition formed.1 uncounted.1,
          formed_plain thenBranch around created formed.2.1 uncounted.2.1
            unraw.1,
          formed_plain elseBranch around _ formed.2.2 uncounted.2.2 unraw.2⟩
  | .loop home exit condition body, around, created, formed, uncounted,
      unraw => by
      obtain ⟨homeFixed, exitFixed, conditionRead, bodyFormed⟩ := formed
      simp only [words, List.mem_append, not_or] at uncounted
      exact
        ⟨homeFixed, exitFixed, plain_of_condition conditionRead uncounted.1,
          formed_plain body _ _ bodyFormed uncounted.2 unraw⟩
  | .ret name value, around, created, formed, uncounted, _ => by
      refine ⟨formed.1, ?_⟩
      intro result same
      cases same
      exact plain_of_value (formed.2 result rfl) uncounted
  | .jump target, around, created, formed, _, _ => formed
  | .raw text, around, created, _, _, unraw => by
      cases unraw
  | .block body, around, created, formed, uncounted, unraw =>
      formedAll_plain body around created formed uncounted unraw
  | .empty, around, created, _, _, _ => trivial

theorem formedAll_plain :
    ∀ (body : List Stmt) (around : Option LoopLabels) (created : Nat),
      FormedAll (wordedParts functions function) around created body →
        "@counter" ∉ wordsAll body → anyRaw body = false →
          FormedAll (plainParts functions function) around created body
  | [], around, created, _, _, _ => trivial
  | first :: others, around, created, formed, uncounted, unraw => by
      simp only [wordsAll, List.mem_append, not_or] at uncounted
      simp only [anyRaw, Bool.or_eq_false_iff] at unraw
      exact
        ⟨formed_plain first around created formed.1 uncounted.1 unraw.1,
          formedAll_plain others around _ formed.2 uncounted.2 unraw.2⟩

end

end Stmt

namespace Function

open Program (plainParts wordedParts)

theorem formed_plain
    {earlier : List Function} {created : Nat} {function : Function}
    (formed : function.Formed wordedParts earlier created)
    (uncounted : "@counter" ∉ function.words)
    (unraw : Stmt.anyRaw function.body = false) :
    function.Formed plainParts earlier created := by
  simp only [words, List.mem_cons, List.mem_append, not_or] at uncounted
  obtain ⟨nameUncounted, paramsUncounted, bodyUncounted⟩ := uncounted
  refine
    { name_not_mem := formed.name_not_mem
      name_not_builtin := formed.name_not_builtin
      params_nodup := formed.params_nodup
      names := ?_
      home := formed.home
      body :=
        Stmt.formedAll_plain function.body none created formed.body
          bodyUncounted unraw
      returns := formed.returns }
  intro name member
  refine Program.plain_of_name (formed.names name member) ?_
  rintro rfl
  rcases List.mem_cons.mp member with same | param
  · exact nameUncounted same
  · exact paramsUncounted param

theorem formedAll_plain
    {earlier : List Function} {created : Nat} {functions : List Function}
    (formed : FormedAll wordedParts earlier created functions)
    (uncounted : "@counter" ∉ functions.flatMap words)
    (unraw :
      functions.any (fun function => Stmt.anyRaw function.body) = false) :
    FormedAll plainParts earlier created functions := by
  induction functions generalizing earlier created with
  | nil =>
      trivial
  | cons first others inductionHypothesis =>
      simp only [List.flatMap_cons, List.mem_append, not_or] at uncounted
      simp only [List.any_cons, Bool.or_eq_false_iff] at unraw
      exact
        ⟨formed_plain formed.1 uncounted.1 unraw.1,
          inductionHypothesis formed.2 uncounted.2 unraw.2⟩

end Function

namespace Program

/-- All words of a program that was read are identifiers or numbers. -/
theorem worded_of_parse
    {source : String} {program : Program}
    (read : parse source = .ok program) :
    program.Formed wordedParts := by
  have inherited (callees : List Callee) :
      Expr.Inherited callees Token.Written
        fun expr => expr.Linked callees ∧ expr.Spelled :=
    (Expr.inherited_linked _ callees).and (Expr.inherited_spelled callees)
  exact formed_of_ofStream inherited (Token.written_ofString source) read

def Plain (program : Program) : Prop :=
  program.Formed plainParts

/-- A program that was read is plain when it has no raw instruction and does not
mention the address counter. -/
theorem plain_of_parse
    {source : String} {program : Program}
    (read : parse source = .ok program)
    (unraw : program.hasRaw = false)
    (uncounted : "@counter" ∉ program.words) :
    program.Plain := by
  have formed := worded_of_parse read
  simp only [hasRaw, Bool.or_eq_false_iff] at unraw
  simp only [words, List.mem_append, not_or] at uncounted
  exact
    ⟨Function.formedAll_plain formed.functions uncounted.1 unraw.1,
      Stmt.formedAll_plain program.main none _ formed.main uncounted.2 unraw.2,
      formed.labels⟩

end Program

end FlatCode
