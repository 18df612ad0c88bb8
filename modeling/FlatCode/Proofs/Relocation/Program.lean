import FlatCode.Proofs.Access.Temporary
import FlatCode.Proofs.Relocation.Derivation
import FlatCode.Proofs.Relocation.Listing
import FlatCode.Proofs.Relocation.Source

/-!
# Programs one behind the other

Two programs without functions can be put one behind the other as texts, if the
first one ends with a line feed.  The listing of both together is the listing of the
first, followed by that of the second with higher addresses and higher temporaries:
`Program.compile_append`.

Labels are numbered in two passes.  Reading numbers those of the loops of both
programs, and then the code of both programs creates further ones.  So the labels of
the loops and those of the conditionals of one program are raised by different
amounts: `Label.raiseFrom`.
-/

namespace FlatCode

/-- Raise the number of a label by one amount below a bound, and by another one from
the bound on. -/
def Label.raiseFrom (bound low high : Nat) (label : Label) : Label :=
  label.raise (if label.number < bound then low else high)

theorem Label.raise_zero : Label.raise 0 = id := rfl

theorem renames_raiseFrom (bound low high count : Nat) :
    Renames (Label.raiseFrom bound low high) bound (bound + high) count := by
  intro index _
  have above : ¬ bound + index < bound := by omega
  rw [Label.raiseFrom, if_neg above, Label.raise, Nat.add_right_comm]

/-! ## Statements behind others -/

namespace Stmt

/-- Statements in a program without functions have the same code behind other
statements, relocated. -/
theorem lowerAll_raise
    {body : List Stmt} (low high amount : Nat)
    (formed : FormedAll (Program.linkedParts [] none) none 0 body) :
    lowerAll ⟨loopLabelsAll body + high, amount⟩
        (relabelAll (Label.raise low) body) =
      let code := lowerAll ⟨loopLabelsAll body, 0⟩ body
      (code.1.map
          (Entry.relocate
            (Label.raiseFrom (loopLabelsAll body) low high) amount),
        ⟨loopLabelsAll body + high + branchLabelsAll body,
          code.2.temps + amount⟩) := by
  have early :
      ∀ number < loopLabelsAll body,
        Label.raise low ⟨number⟩ =
          Label.raiseFrom (loopLabelsAll body) low high ⟨number⟩ := by
    intro number below
    rw [Label.raiseFrom, if_pos below]
  have same := relabelAll_congr early body formed (by omega) (by simp)
  have relocated :=
    relocatesAll_of_formed
      (Label.raiseFrom (loopLabelsAll body) low high) amount body formed
      ⟨loopLabelsAll body, 0⟩ (loopLabelsAll body + high)
      (renames_raiseFrom _ _ _ _)
  rw [Nat.zero_add] at relocated
  rw [same, relocated]

/-- The code of statements and of others behind them is the code of both,
relocated. -/
theorem lowerAll_append_raise
    {first second : List Stmt}
    (firstFormed : FormedAll (Program.linkedParts [] none) none 0 first)
    (secondFormed : FormedAll (Program.linkedParts [] none) none 0 second) :
    ∃ firstRename secondRename,
      let code := lowerAll ⟨loopLabelsAll first, 0⟩ first
      (lowerAll ⟨loopLabelsAll first + loopLabelsAll second, 0⟩
          (first ++ relabelAll (Label.raise (loopLabelsAll first)) second)).1 =
        code.1.map (Entry.relocate firstRename 0) ++
          (lowerAll ⟨loopLabelsAll second, 0⟩ second).1.map
            (Entry.relocate secondRename code.2.temps) := by
  have early := lowerAll_raise 0 (loopLabelsAll second) 0 firstFormed
  have late :=
    lowerAll_raise (loopLabelsAll first)
      (loopLabelsAll first + branchLabelsAll first)
      (lowerAll ⟨loopLabelsAll first, 0⟩ first).2.temps secondFormed
  rw [Label.raise_zero, relabelAll_id] at early
  rw [← Nat.add_assoc, Nat.add_comm (loopLabelsAll second)] at late
  refine
    ⟨Label.raiseFrom (loopLabelsAll first) 0 (loopLabelsAll second),
      Label.raiseFrom (loopLabelsAll second) (loopLabelsAll first)
        (loopLabelsAll first + branchLabelsAll first), ?_⟩
  simp only [lowerAll_append, early, Nat.add_zero, late]

/-- An empty statement in front of others changes nothing. -/
theorem drop_empty
    {parts : Parts} {main rest : List Stmt}
    (shape : main = rest ∨ main = .empty :: rest)
    (formed : FormedAll parts none 0 main) :
    FormedAll parts none 0 rest ∧ loopLabelsAll rest = loopLabelsAll main ∧
      ∀ supply, lowerAll supply rest = lowerAll supply main := by
  rcases shape with rfl | rfl
  · exact ⟨formed, rfl, fun _ => rfl⟩
  · have none : loopLabels .empty = 0 := by rw [loopLabels]
    have behind := formed.2
    rw [none] at behind
    refine ⟨behind, ?_, fun supply => ?_⟩
    · rw [loopLabelsAll, none, Nat.zero_add]
    · rw [lowerAll_cons, lower_empty]
      rfl

end Stmt

namespace Program

section Plain

variable {source : String} {program : Program}

theorem lower_of_plain (plain : program.functions = []) :
    program.lower = program.mainCode.1 := by
  rw [lower_eq_append, functionCode, if_pos plain, List.append_nil]

theorem temps_of_plain (plain : program.functions = []) :
    program.temps = program.mainCode.2.temps := by
  rw [temps, plain, Function.lowerAll_nil]

theorem main_of_plain
    (read : parse source = .ok program) (plain : program.functions = []) :
    Stmt.FormedAll (linkedParts [] none) none 0 program.main ∧
      program.labels.created = Stmt.loopLabelsAll program.main := by
  have formed := wellFormed_of_parse read
  have main := formed.main
  have created := created_eq formed
  rw [plain] at main created
  exact ⟨main, created.trans (Nat.zero_add _)⟩

end Plain

section Append

variable {first second : String} {firstProgram secondProgram : Program}
  (ended : first = "" ∨ first.toList.getLast? = some '\n')
  (firstRead : parse first = .ok firstProgram)
  (firstPlain : firstProgram.functions = [])
  (secondRead : parse second = .ok secondProgram)
  (secondPlain : secondProgram.functions = [])

include ended firstRead firstPlain secondRead secondPlain

theorem parse_append :
    ∃ rest,
      (secondProgram.main = rest ∨ secondProgram.main = .empty :: rest) ∧
        parse (first ++ second) =
          .ok
            ⟨[],
              firstProgram.main ++
                Stmt.relabelAll (Label.raise firstProgram.labels.created) rest,
              LabelTable.empty.createMany
                (firstProgram.labels.created +
                  secondProgram.labels.created)⟩ := by
  rw [← String.toList_eq_nil_iff] at ended
  obtain ⟨_, whole⟩ := ending_of_ofStream firstRead
  have moved :=
    ofStream_ofLines secondRead (0 + (Text.lines first.toList).length)
  obtain ⟨last, lastEnded⟩ := ending_of_ofStream moved
  have isLast := Token.Stream.kind_of_ending_ofLines lastEnded
  rw [parse, Token.Stream.ofString, String.toList_append,
    Text.lines_append ended, Token.Stream.ofLines_append whole]
  exact
    ofStream_append isLast firstRead firstPlain lastEnded moved secondPlain

/-- The code of two programs without functions, one behind the other, is the code of
both, relocated. -/
theorem lower_append :
    ∃ whole firstRename secondRename,
      parse (first ++ second) = .ok whole ∧
        whole.lower =
          firstProgram.lower.map (Entry.relocate firstRename 0) ++
            secondProgram.lower.map
              (Entry.relocate secondRename firstProgram.temps) := by
  obtain ⟨firstFormed, firstCreated⟩ := main_of_plain firstRead firstPlain
  obtain ⟨secondFormed, secondCreated⟩ := main_of_plain secondRead secondPlain
  obtain ⟨rest, shape, read⟩ :=
    parse_append ended firstRead firstPlain secondRead secondPlain
  obtain ⟨restFormed, sameLabels, sameCode⟩ :=
    Stmt.drop_empty shape secondFormed
  obtain ⟨firstRename, secondRename, code⟩ :=
    Stmt.lowerAll_append_raise firstFormed restFormed
  rw [sameLabels, sameCode, ← firstCreated, ← secondCreated] at code
  refine ⟨_, firstRename, secondRename, read, ?_⟩
  rw [lower_of_plain rfl, lower_of_plain firstPlain, lower_of_plain secondPlain,
    temps_of_plain firstPlain]
  unfold mainCode
  rw [LabelTable.created_createMany_empty]
  exact code

end Append

/-- Compilation of programs without functions is compositional.  If the first of two
texts is empty or ends with a line feed, both together are compiled to the lines of
the first, unchanged, followed by those of the second with its jumps raised by the
number of lines in front of them and its temporaries by the number of temporaries of
the first.  The guard is there if the second listing has one, or if the second
listing has no line and the first one has a guard. -/
theorem compile_append
    {first second : String} {firstProgram secondProgram : Program}
    (ended : first = "" ∨ first.toList.getLast? = some '\n')
    (firstRead : parse first = .ok firstProgram)
    (firstPlain : firstProgram.functions = [])
    (secondRead : parse second = .ok secondProgram)
    (secondPlain : secondProgram.functions = []) :
    ∃ firstListing secondListing whole listing,
      Compiles first firstProgram firstListing ∧
        Compiles second secondProgram secondListing ∧
        Compiles (first ++ second) whole listing ∧
        listing.lines =
          firstListing.lines ++
            secondListing.lines.map
              (Line.relocate firstListing.lines.length firstProgram.temps) ∧
        (listing.guarded = true ↔
          secondListing.guarded = true ∨
            secondListing.lines = [] ∧ firstListing.guarded = true) := by
  obtain ⟨whole, firstRename, secondRename, read, code⟩ :=
    lower_append ended firstRead firstPlain secondRead secondPlain
  obtain ⟨firstEmitted, _, firstAssembled, _⟩ :=
    exists_compile_of_parse firstRead
  obtain ⟨secondEmitted, _, secondAssembled, _⟩ :=
    exists_compile_of_parse secondRead
  obtain ⟨emitted, _, assembled, _⟩ := exists_compile_of_parse read
  have holds := holds_of_parse read assembled
  rw [code] at holds
  obtain ⟨firstListing, secondListing, firstListed, secondListed, listed⟩ :=
    (holds_of_parse firstRead firstAssembled).listing?_append
      (holds_of_parse secondRead secondAssembled) holds
  refine
    ⟨firstListing, secondListing, whole, _,
      compiles_of_listing? firstRead firstAssembled firstListed,
      compiles_of_listing? secondRead secondAssembled secondListed,
      compiles_of_listing? read assembled listed, rfl, ?_⟩
  simp

/-- The statement that ends the first text takes the semicolon with which the second
one starts. -/
theorem compile_append_of_open_statement :
    ∃ firstProgram secondProgram firstListing secondListing whole listing,
      firstProgram.functions = [] ∧ secondProgram.functions = [] ∧
        Compiles "while (a < 9) { if (a) a = (a + 1) * 2 }\nb = a\n"
          firstProgram firstListing ∧
        Compiles "; while (b > 1) { m[b - 1] = b * b; break }"
          secondProgram secondListing ∧
        Compiles
          ("while (a < 9) { if (a) a = (a + 1) * 2 }\nb = a\n" ++
            "; while (b > 1) { m[b - 1] = b * b; break }")
          whole listing ∧
        listing.lines =
          firstListing.lines ++
            secondListing.lines.map
              (Line.relocate firstListing.lines.length firstProgram.temps) ∧
        (listing.guarded = true ↔
          secondListing.guarded = true ∨
            secondListing.lines = [] ∧ firstListing.guarded = true) := by
  obtain ⟨firstProgram, firstRead, firstPlain⟩ :=
    exists_of_accepted
      (show ((parse
          "while (a < 9) { if (a) a = (a + 1) * 2 }\nb = a\n").toOption.any
            fun program => program.functions.isEmpty) = true by
        decide +kernel)
  obtain ⟨secondProgram, secondRead, secondPlain⟩ :=
    exists_of_accepted
      (show ((parse
          "; while (b > 1) { m[b - 1] = b * b; break }").toOption.any
            fun program => program.functions.isEmpty) = true by
        decide +kernel)
  have firstPlain := List.isEmpty_iff.mp firstPlain
  have secondPlain := List.isEmpty_iff.mp secondPlain
  have ended :
      "while (a < 9) { if (a) a = (a + 1) * 2 }\nb = a\n".toList.getLast? =
        some '\n' := by
    decide +kernel
  obtain ⟨firstListing, secondListing, whole, listing, compiled⟩ :=
    compile_append (Or.inr ended) firstRead firstPlain secondRead secondPlain
  exact
    ⟨firstProgram, secondProgram, firstListing, secondListing, whole, listing,
      firstPlain, secondPlain, compiled⟩

end Program

example :
    (compile
        ("while (a < 9) { if (a) a = (a + 1) * 2 }\nb = a\n" ++
          "; while (b > 1) { m[b - 1] = b * b; break }")).toOption =
      some
        ("jump 5 greaterThanEq a 9\njump 4 equal a 0\n" ++
          "op add $tmp$1 a 1\nop mul a $tmp$1 2\njump 0 always\nset b a\n" ++
          "jump 12 lessThanEq b 1\nop mul $tmp$2 b b\nop sub $tmp$3 b 1\n" ++
          "write $tmp$2 m $tmp$3\njump 12 always\njump 6 always\nnoop\n") := by
  decide +kernel

end FlatCode
