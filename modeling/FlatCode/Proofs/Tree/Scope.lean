import FlatCode.Proofs.Lowering.Program
import FlatCode.Proofs.Reading.Link

/-!
# Labels, jumps and returns of a program that was read

Reading numbers the labels of loops and functions in the order of the text:

* a loop takes the numbers of its home and its exit before its body is read;
* a function takes the number of its home behind its body.

So the labels of a program, listed in the order of the text, are the numbers from
zero on, and the label table counts exactly these.

A jump and a return carry a label and a name that were copied from their
surroundings.  `Stmt.Occurs` follows a statement down into the tree and keeps the
labels of the innermost loop passed on the way, so that the copies can be compared
with what really stands around.
-/

namespace FlatCode

namespace Stmt

variable {parts : Parts} {around innermost : Option LoopLabels}

/-! ## Statements inside statements -/

/-- The statement `inner` occurs in another one.  If `around` are the labels of
the innermost loop around the other one, then `innermost` are those of the
innermost loop around `inner`. -/
inductive Occurs (inner : Stmt) (innermost : Option LoopLabels) :
    Option LoopLabels → Stmt → Prop
  | here : Occurs inner innermost innermost inner
  | ifThen {around : Option LoopLabels} (condition : Expr) {thenBranch : Stmt} :
      Occurs inner innermost around thenBranch →
        Occurs inner innermost around (.ifThen condition thenBranch)
  | thenBranch {around : Option LoopLabels} (condition : Expr)
      {thenBranch : Stmt} (elseBranch : Stmt) :
      Occurs inner innermost around thenBranch →
        Occurs inner innermost around
          (.ifElse condition thenBranch elseBranch)
  | elseBranch {around : Option LoopLabels} (condition : Expr)
      (thenBranch : Stmt) {elseBranch : Stmt} :
      Occurs inner innermost around elseBranch →
        Occurs inner innermost around
          (.ifElse condition thenBranch elseBranch)
  | loop (around : Option LoopLabels) (home exit : Label) (condition : Expr)
      {body : Stmt} :
      Occurs inner innermost (some ⟨home, exit⟩) body →
        Occurs inner innermost around (.loop home exit condition body)
  | block {around : Option LoopLabels} {body : List Stmt} {stmt : Stmt} :
      stmt ∈ body → Occurs inner innermost around stmt →
        Occurs inner innermost around (.block body)

/-- The statement `inner` occurs in a body, and `innermost` are the labels of the
innermost loop of the body around it. -/
def OccursIn
    (body : List Stmt) (inner : Stmt) (innermost : Option LoopLabels) : Prop :=
  ∃ stmt ∈ body, Occurs inner innermost none stmt

/-- Each of the statements that were read one after the other was read. -/
theorem formed_of_mem
    {created : Nat} {body : List Stmt} {stmt : Stmt}
    (formed : FormedAll parts around created body) (member : stmt ∈ body) :
    ∃ before, stmt.Formed parts around before := by
  induction body generalizing created with
  | nil =>
      cases member
  | cons first others inductionHypothesis =>
      rcases List.mem_cons.mp member with rfl | later
      · exact ⟨created, formed.1⟩
      · exact inductionHypothesis formed.2 later

/-- A statement inside one that was read was read with the labels of the innermost
loop around it. -/
theorem formed_of_occurs
    {inner stmt : Stmt} {created : Nat}
    (occurs : Occurs inner innermost around stmt)
    (formed : stmt.Formed parts around created) :
    ∃ before, inner.Formed parts innermost before := by
  induction occurs generalizing created with
  | here =>
      exact ⟨created, formed⟩
  | ifThen condition _ inductionHypothesis =>
      exact inductionHypothesis formed.2
  | thenBranch condition elseBranch _ inductionHypothesis =>
      exact inductionHypothesis formed.2.1
  | elseBranch condition thenBranch _ inductionHypothesis =>
      exact inductionHypothesis formed.2.2
  | loop around home exit condition _ inductionHypothesis =>
      obtain ⟨rfl, rfl, _, bodyFormed⟩ := formed
      exact inductionHypothesis bodyFormed
  | block member _ inductionHypothesis =>
      obtain ⟨before, stmtFormed⟩ := formed_of_mem formed member
      exact inductionHypothesis stmtFormed

theorem formed_of_occursIn
    {body : List Stmt} {inner : Stmt} {created : Nat}
    (occurs : OccursIn body inner innermost)
    (formed : FormedAll parts none created body) :
    ∃ before, inner.Formed parts innermost before := by
  obtain ⟨stmt, member, inside⟩ := occurs
  obtain ⟨before, stmtFormed⟩ := formed_of_mem formed member
  exact formed_of_occurs inside stmtFormed

end Stmt

namespace Program

theorem address?_eq_none
    {parts : List Callee → Option String → Stmt.Parts} {program : Program}
    (formed : program.Formed parts) (label : Label) :
    program.labels.address? label = none := by
  rw [formed.labels]
  simp

/-- Every body of a program, the main statements among them, was read. -/
theorem formed_of_mem_bodies
    {parts : List Callee → Option String → Stmt.Parts} {program : Program}
    (formed : program.Formed parts) {body : List Stmt}
    (member : body ∈ program.main :: program.functions.map Function.body) :
    ∃ callees function created,
      Stmt.FormedAll (parts callees function) none created body := by
  rcases List.mem_cons.mp member with rfl | inFunction
  · exact ⟨_, _, _, formed.main⟩
  · obtain ⟨function, functionMember, rfl⟩ := List.mem_map.mp inFunction
    obtain ⟨earlier, created, functionFormed⟩ :=
      Function.formed_of_mem formed.functions functionMember
    exact ⟨_, _, _, functionFormed.body⟩

end Program

/-- In a program that was read

* the labels of loops and functions are distinct, they are the numbers up to the
  number of created labels, and none of them has an address;
* every jump goes to the home or to the exit of the innermost loop around it;
* every return in a function names this function, and the main statements hold no
  return. -/
theorem labels_and_scopes_of_parse
    {source : String} {program : Program}
    (read : Program.parse source = .ok program) :
    (program.sites.Nodup ∧
        (∀ number, Label.mk number ∈ program.sites ↔
          number < program.labels.created) ∧
        (∀ label, program.labels.address? label = none) ∧
        program.labels.placed = 0) ∧
      (∀ body ∈ program.main :: program.functions.map Function.body,
        ∀ target innermost, Stmt.OccursIn body (.jump target) innermost →
          ∃ labels, innermost = some labels ∧
            (target = labels.home ∨ target = labels.exit)) ∧
      (∀ function ∈ program.functions, ∀ name value innermost,
        Stmt.OccursIn function.body (.ret name value) innermost →
          name = function.name) ∧
      ∀ name value innermost,
        ¬ Stmt.OccursIn program.main (.ret name value) innermost := by
  have formed := Program.wellFormed_of_parse read
  have listed := Program.sites_eq_labelRange formed
  refine ⟨⟨?_, ?_, ?_, ?_⟩, ?_, ?_, ?_⟩
  · rw [listed]
    exact nodup_labelRange 0 program.labels.created
  · intro number
    rw [listed, mem_labelRange]
    simp
  · exact Program.address?_eq_none formed
  · rw [formed.labels, LabelTable.placed_createMany]
    rfl
  · intro body member target innermost occurs
    obtain ⟨callees, function, created, bodyFormed⟩ :=
      Program.formed_of_mem_bodies formed member
    obtain ⟨before, jumpFormed⟩ := Stmt.formed_of_occursIn occurs bodyFormed
    exact jumpFormed
  · intro function member name value innermost occurs
    obtain ⟨earlier, created, functionFormed⟩ :=
      Function.formed_of_mem formed.functions member
    obtain ⟨before, returnFormed⟩ :=
      Stmt.formed_of_occursIn occurs functionFormed.body
    exact (Option.some.inj returnFormed.1).symm
  · intro name value innermost occurs
    obtain ⟨before, returnFormed⟩ :=
      Stmt.formed_of_occursIn occurs formed.main
    cases returnFormed.1

/-- One loop inside another in a function, and a loop behind the function. -/
theorem labels_and_scopes_of_nested_loops :
    ∃ program,
      Program.parse
          "def f(n) \x7b while (n) \x7b while (1) break; continue; \x7d return n; \x7d while (f(2)) x = 1;" =
        .ok program ∧
        program.sites = [⟨0⟩, ⟨1⟩, ⟨2⟩, ⟨3⟩, ⟨4⟩, ⟨5⟩, ⟨6⟩] ∧
        program.sites.Nodup ∧
        (∀ number, Label.mk number ∈ program.sites ↔
          number < program.labels.created) ∧
        ∀ body ∈ program.main :: program.functions.map Function.body,
          ∀ target innermost, Stmt.OccursIn body (.jump target) innermost →
            ∃ labels, innermost = some labels ∧
              (target = labels.home ∨ target = labels.exit) := by
  obtain ⟨program, read, accepted⟩ :=
    Program.exists_of_accepted
      (show ((Program.parse
          "def f(n) \x7b while (n) \x7b while (1) break; continue; \x7d return n; \x7d while (f(2)) x = 1;"
        ).toOption.any fun program =>
          decide (program.sites = [⟨0⟩, ⟨1⟩, ⟨2⟩, ⟨3⟩, ⟨4⟩, ⟨5⟩, ⟨6⟩])) = true by
        decide +kernel)
  obtain ⟨⟨distinct, numbered, _⟩, jumps, _⟩ := labels_and_scopes_of_parse read
  exact ⟨program, read, of_decide_eq_true accepted, distinct, numbered, jumps⟩

end FlatCode
