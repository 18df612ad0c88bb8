import FlatCode.CommandLine
import FlatCode.Proofs.Placement
import FlatCode.Proofs.Token.Origin

/-!
# Outcomes of commands

A command ends in one of two ways.  It succeeds if it names exactly one source, the
source can be read as text, and the stage that is asked for accepts the text; then
it prints what the stage makes of the text and nothing else.  In all other cases it
prints one diagnostic on the error channel and nothing else.  It is never broken off
because labels were misused.

* The outcome depends on the switches only through the stage they ask for, so
  neither their order nor switches without effect matter.
* For one source, the tree and the listing exist together, and then so do the
  tokens.
-/

namespace FlatCode.CommandLine

/-! ## What a command asks for -/

/-- The words of a command that are no switches. -/
def positional (args : List String) : List String :=
  args.filter fun word => ¬"--".toList <+: word.toList

/-- What the words of a command, the name of the program among them, ask for. -/
inductive Asks (words : List String) : Mode → Prop
  | tokens (asked : "--tokens" ∈ words) : Asks words .tokens
  | tree (noTokens : "--tokens" ∉ words) (asked : "--ast" ∈ words) :
      Asks words .tree
  | listing (noTokens : "--tokens" ∉ words) (noTree : "--ast" ∉ words) :
      Asks words .listing

/-- A command names exactly one source, and its bytes are the given text. -/
def Opens (surroundings : Surroundings) (args : List String) (source : String) :
    Prop :=
  ∃ word,
    positional args = [word] ∧
      surroundings.content? (Input.ofWord word) = some source.toUTF8

/-- What a stage that accepts a text makes of it. -/
inductive Prints (escaped : Char → Bool) : Mode → String → String → Prop
  | tokens {source : String} {tokens : List Token}
      (lexed : Token.tokenize source = .ok tokens) :
      Prints escaped .tokens source (Text.unlines (tokens.map tokenLine))
  | tree {source : String} {program : Program}
      (read : Program.parse source = .ok program) :
      Prints escaped .tree source (program.dump escaped)
  | listing {source output : String} (compiled : compile source = .ok output) :
      Prints escaped .listing source output

/-- What a stage that does not accept a text reports. -/
inductive Rejects : Mode → String → Diagnostic → Prop
  | tokens {source : String} {report : Diagnostic}
      (failed : Token.tokenize source = .error report) :
      Rejects .tokens source report
  | tree {source : String} {report : Diagnostic}
      (failed : Program.parse source = .error report) :
      Rejects .tree source report
  | listing {source : String} {report : Diagnostic}
      (failed : compile source = .error (.rejected report)) :
      Rejects .listing source report

/-- A command that succeeds, and what it prints. -/
def Succeeds
    (escaped : Char → Bool) (surroundings : Surroundings) (program : String)
    (args : List String) (output : String) : Prop :=
  ∃ mode source,
    Asks (program :: args) mode ∧ Opens surroundings args source ∧
      Prints escaped mode source output

/-- A command that does not succeed, and what it reports. -/
inductive Reports
    (surroundings : Surroundings) (program : String) (args : List String) :
    String → Prop
  | usage (count : (positional args).length ≠ 1) :
      Reports surroundings program args ("Usage: " ++ program ++ " source_file")
  | unreadable (count : (positional args).length = 1)
      (closed : ∀ source, ¬Opens surroundings args source) :
      Reports surroundings program args "Failed to open source file."
  | rejected {mode : Mode} {source : String} {report : Diagnostic}
      (asks : Asks (program :: args) mode) (opens : Opens surroundings args source)
      (rejects : Rejects mode source report) :
      Reports surroundings program args report.render

/-! ## Words -/

theorem isSwitch_iff (word : String) :
    isSwitch word = true ↔ "--".toList <+: word.toList :=
  List.isPrefixOf_iff_prefix

theorem filter_not_isSwitch (args : List String) :
    (args.filter fun word => !isSwitch word) = positional args := by
  refine List.filter_congr fun word _ => ?_
  rw [Bool.eq_iff_iff, Bool.not_eq_true', Bool.eq_false_iff, Ne, isSwitch_iff,
    decide_eq_true_iff]

theorem asks_ofWords (words : List String) : Asks words (Mode.ofWords words) := by
  rw [Mode.ofWords]
  split
  · next asked => exact .tokens (by simpa using asked)
  · next noTokens =>
      have noTokens : "--tokens" ∉ words := by simpa using noTokens
      split
      · next asked => exact .tree noTokens (by simpa using asked)
      · next noTree => exact .listing noTokens (by simpa using noTree)

/-- Words ask for one stage only. -/
theorem Asks.eq_ofWords
    {words : List String} {mode : Mode} (asks : Asks words mode) :
    mode = Mode.ofWords words := by
  cases asks with
  | tokens asked =>
      simp [Mode.ofWords, asked]
  | tree noTokens asked =>
      simp [Mode.ofWords, noTokens, asked]
  | listing noTokens noTree =>
      simp [Mode.ofWords, noTokens, noTree]

/-- Only two switches matter to the stage that is asked for. -/
theorem ofWords_congr
    {words others : List String}
    (tokens : "--tokens" ∈ words ↔ "--tokens" ∈ others)
    (tree : "--ast" ∈ words ↔ "--ast" ∈ others) :
    Mode.ofWords words = Mode.ofWords others := by
  simp only [Mode.ofWords, List.contains_iff_mem, tokens, tree]

theorem positional_insert_switch
    {word : String} (switch : "--".toList <+: word.toList)
    (before after : List String) :
    positional (before ++ word :: after) = positional (before ++ after) := by
  rw [positional, positional, List.filter_append, List.filter_append,
    List.filter_cons_of_neg (by simpa using switch)]

/-! ## Bytes as text -/

theorem fromUTF8?_eq_some_iff {bytes : ByteArray} {source : String} :
    String.fromUTF8? bytes = some source ↔ bytes = source.toUTF8 := by
  rw [String.fromUTF8?]
  constructor
  · intro decoded
    split at decoded
    · cases decoded
      rfl
    · cases decoded
  · rintro rfl
    exact dif_pos source.isValidUTF8

/-! ## Stages -/

section Stages

variable {escaped : Char → Bool}

/-- Every stage accepts a text or reports why it does not. -/
theorem prints_or_rejects
    (escaped : Char → Bool) (mode : Mode) (source : String) :
    (∃ output, Prints escaped mode source output) ∨
      ∃ report, Rejects mode source report := by
  cases mode with
  | tokens =>
      cases lexed : Token.tokenize source with
      | ok tokens => exact Or.inl ⟨_, .tokens lexed⟩
      | error report => exact Or.inr ⟨_, .tokens lexed⟩
  | tree =>
      cases read : Program.parse source with
      | ok program => exact Or.inl ⟨_, .tree read⟩
      | error report => exact Or.inr ⟨_, .tree read⟩
  | listing =>
      cases read : Program.parse source with
      | ok program =>
          obtain ⟨_, _, _, _, _, compiled⟩ := Program.exists_compile_of_parse read
          exact Or.inl ⟨_, .listing compiled⟩
      | error report =>
          exact Or.inr ⟨_, .listing (Program.compile_of_rejected read)⟩

theorem Prints.run
    {mode : Mode} {source output : String}
    (prints : Prints escaped mode source output) :
    mode.run source escaped = ⟨0, output, ""⟩ := by
  cases prints with
  | tokens lexed =>
      rw [Mode.run, lexed]
      rfl
  | tree read =>
      rw [Mode.run, read]
      rfl
  | listing compiled =>
      rw [Mode.run, compiled]
      rfl

theorem Rejects.run
    {mode : Mode} {source : String} {report : Diagnostic}
    (rejects : Rejects mode source report) :
    mode.run source escaped = ⟨1, "", report.render ++ "\n"⟩ := by
  cases rejects with
  | tokens failed =>
      rw [Mode.run, failed]
      rfl
  | tree failed =>
      rw [Mode.run, failed]
      rfl
  | listing failed =>
      rw [Mode.run, failed]
      rfl

/-- The tree of a text exists exactly if its listing does. -/
theorem prints_tree_iff_listing (source : String) :
    (∃ output, Prints escaped .tree source output) ↔
      ∃ output, Prints escaped .listing source output := by
  constructor
  · rintro ⟨_, prints⟩
    cases prints with
    | tree read =>
        obtain ⟨_, _, _, _, _, compiled⟩ := Program.exists_compile_of_parse read
        exact ⟨_, .listing compiled⟩
  · rintro ⟨_, prints⟩
    cases prints with
    | listing compiled =>
        cases read : Program.parse source with
        | ok program =>
            exact ⟨_, .tree read⟩
        | error report =>
            rw [Program.compile_of_rejected read] at compiled
            cases compiled

/-- A program is read up to the end of its text, so no line of it is broken. -/
theorem exists_tokenize_of_parse
    {source : String} {program : Program}
    (read : Program.parse source = .ok program) :
    ∃ tokens, Token.tokenize source = .ok tokens := by
  rw [Program.parse, Program.ofStream] at read
  obtain ⟨functions, _, read⟩ := bind_eq_ok_iff.mp read
  obtain ⟨main, _, read⟩ := bind_eq_ok_iff.mp read
  obtain ⟨_, ended, _⟩ := bind_eq_ok_iff.mp read
  cases left : main.rest with
  | cons token rest =>
      rw [left] at ended
      cases ended
  | nil =>
      rw [left] at ended
      obtain ⟨last, ending, _⟩ := bind_eq_ok_iff.mp ended
      refine ⟨(Token.Stream.ofString source).tokens ++ [last], ?_⟩
      rw [Token.tokenize, Token.Stream.toList, ending]
      rfl

theorem prints_tokens_of_tree
    {source tree : String} (prints : Prints escaped .tree source tree) :
    ∃ output, Prints escaped .tokens source output := by
  cases prints with
  | tree read =>
      obtain ⟨tokens, lexed⟩ := exists_tokenize_of_parse read
      exact ⟨_, .tokens lexed⟩

end Stages

/-! ## Commands -/

variable {escaped : Char → Bool} {surroundings : Surroundings}
  {program : String} {args : List String}

/-- The outcome of a command depends on its positional words and on the stage that is
asked for. -/
theorem run_congr
    {others : List String} (samePositional : positional args = positional others)
    (sameMode :
      Mode.ofWords (program :: args) = Mode.ofWords (program :: others)) :
    run surroundings program args escaped =
      run surroundings program others escaped := by
  rw [run, run, Request.ofWords?, Request.ofWords?, filter_not_isSwitch,
    filter_not_isSwitch, samePositional, sameMode]

theorem run_of_count (count : (positional args).length ≠ 1) :
    run surroundings program args escaped =
      ⟨1, "", "Usage: " ++ program ++ " source_file" ++ "\n"⟩ := by
  have noRequest : Request.ofWords? program args = none := by
    rw [Request.ofWords?, filter_not_isSwitch]
    split
    · next word named => exact (count (by rw [named]; rfl)).elim
    · rfl
  rw [run, noRequest]
  rfl

theorem run_of_positional {word : String} (named : positional args = [word]) :
    run surroundings program args escaped =
      Request.run ⟨Mode.ofWords (program :: args), Input.ofWord word⟩
        (surroundings.content? (Input.ofWord word)) escaped := by
  rw [run, Request.ofWords?, filter_not_isSwitch, named]

theorem run_of_opens
    {source : String} (opens : Opens surroundings args source) :
    run surroundings program args escaped =
      (Mode.ofWords (program :: args)).run source escaped := by
  obtain ⟨word, named, content⟩ := opens
  rw [run_of_positional named, content, Request.run, Option.bind_some,
    fromUTF8?_eq_some_iff.mpr rfl]

theorem run_of_closed
    (count : (positional args).length = 1)
    (closed : ∀ source, ¬Opens surroundings args source) :
    run surroundings program args escaped =
      ⟨1, "", "Failed to open source file." ++ "\n"⟩ := by
  obtain ⟨word, named⟩ := List.length_eq_one_iff.mp count
  have noText :
      (surroundings.content? (Input.ofWord word)).bind String.fromUTF8? = none := by
    cases decoded :
        (surroundings.content? (Input.ofWord word)).bind String.fromUTF8? with
    | none =>
        rfl
    | some source =>
        obtain ⟨bytes, content, isText⟩ := Option.bind_eq_some_iff.mp decoded
        rw [fromUTF8?_eq_some_iff.mp isText] at content
        exact (closed source ⟨word, named, content⟩).elim
  rw [run_of_positional named, Request.run, noText]
  rfl

theorem Succeeds.run
    {output : String}
    (succeeds : Succeeds escaped surroundings program args output) :
    CommandLine.run surroundings program args escaped = ⟨0, output, ""⟩ := by
  obtain ⟨mode, source, asks, opens, prints⟩ := succeeds
  rw [run_of_opens opens, ← asks.eq_ofWords, prints.run]

theorem Reports.run
    {message : String} (reports : Reports surroundings program args message) :
    CommandLine.run surroundings program args escaped = ⟨1, "", message ++ "\n"⟩ := by
  cases reports with
  | usage count =>
      exact run_of_count count
  | unreadable count closed =>
      exact run_of_closed count closed
  | rejected asks opens rejects =>
      rw [run_of_opens opens, ← asks.eq_ofWords, rejects.run]

/-- Every command succeeds or reports why it does not. -/
theorem succeeds_or_reports
    (escaped : Char → Bool) (surroundings : Surroundings) (program : String)
    (args : List String) :
    (∃ output, Succeeds escaped surroundings program args output) ∨
      ∃ message, Reports surroundings program args message := by
  by_cases count : (positional args).length = 1
  · by_cases opened : ∃ source, Opens surroundings args source
    · obtain ⟨source, opens⟩ := opened
      have asks := asks_ofWords (program :: args)
      rcases
        prints_or_rejects escaped (Mode.ofWords (program :: args)) source with
        ⟨output, prints⟩ | ⟨report, rejects⟩
      · exact Or.inl ⟨output, _, source, asks, opens, prints⟩
      · exact Or.inr ⟨_, .rejected asks opens rejects⟩
    · exact Or.inr ⟨_, .unreadable count (not_exists.mp opened)⟩
  · exact Or.inr ⟨_, .usage count⟩

theorem exit_eq_zero_iff :
    (run surroundings program args escaped).exit = 0 ↔
      ∃ output, Succeeds escaped surroundings program args output := by
  constructor
  · intro exits
    rcases succeeds_or_reports escaped surroundings program args with
      succeeds | ⟨message, reports⟩
    · exact succeeds
    · rw [reports.run] at exits
      cases exits
  · rintro ⟨output, succeeds⟩
    rw [succeeds.run]

/-- A command that asks for a stage succeeds if the stage accepts its source. -/
theorem exit_eq_zero_iff_of_asks
    {mode : Mode} (asks : Asks (program :: args) mode) :
    (run surroundings program args escaped).exit = 0 ↔
      ∃ source,
        Opens surroundings args source ∧
          ∃ output, Prints escaped mode source output := by
  rw [exit_eq_zero_iff]
  constructor
  · rintro ⟨output, other, source, otherAsks, opens, prints⟩
    rw [otherAsks.eq_ofWords, ← asks.eq_ofWords] at prints
    exact ⟨source, opens, output, prints⟩
  · rintro ⟨source, opens, output, prints⟩
    exact ⟨output, mode, source, asks, opens, prints⟩

/-! ## The main statement -/

/-- A command either prints what the stage makes of its one readable source and exits
with zero, or prints one diagnostic and exits with one.  The order of the switches and
switches without effect do not matter.  The tree exists exactly if the listing does,
and then the tokens do.  This is so whatever characters a tree gives by their code
points. -/
theorem command_has_two_outcomes
    (escaped : Char → Bool) (surroundings : Surroundings) (program : String) :
    (∀ args,
      (∃ output,
        Succeeds escaped surroundings program args output ∧
          run surroundings program args escaped = ⟨0, output, ""⟩) ∨
      ∃ message,
        Reports surroundings program args message ∧
          run surroundings program args escaped = ⟨1, "", message ++ "\n"⟩) ∧
    (∀ args,
      (run surroundings program args escaped).exit = 0 ↔
        ∃ output, Succeeds escaped surroundings program args output) ∧
    (∀ args others,
      positional args = positional others → args.Perm others →
        run surroundings program args escaped =
          run surroundings program others escaped) ∧
    (∀ before word after,
      "--".toList <+: word.toList → word ≠ "--tokens" → word ≠ "--ast" →
        run surroundings program (before ++ word :: after) escaped =
          run surroundings program (before ++ after) escaped) ∧
    ∀ treeArgs listingArgs tokenArgs,
      Asks (program :: treeArgs) .tree →
      Asks (program :: listingArgs) .listing →
      Asks (program :: tokenArgs) .tokens →
      positional treeArgs = positional listingArgs →
      positional treeArgs = positional tokenArgs →
        ((run surroundings program treeArgs escaped).exit = 0 ↔
          (run surroundings program listingArgs escaped).exit = 0) ∧
        ((run surroundings program treeArgs escaped).exit = 0 →
          (run surroundings program tokenArgs escaped).exit = 0) := by
  refine ⟨?_, fun args => exit_eq_zero_iff, ?_, ?_, ?_⟩
  · intro args
    rcases succeeds_or_reports escaped surroundings program args with
      ⟨output, succeeds⟩ | ⟨message, reports⟩
    · exact Or.inl ⟨output, succeeds, succeeds.run⟩
    · exact Or.inr ⟨message, reports, reports.run⟩
  · intro args others samePositional permuted
    refine run_congr samePositional (ofWords_congr ?_ ?_)
    · exact (permuted.cons program).mem_iff
    · exact (permuted.cons program).mem_iff
  · intro before word after switch noTokens noTree
    refine run_congr (positional_insert_switch switch before after)
      (ofWords_congr ?_ ?_)
    · simp [Ne.symm noTokens]
    · simp [Ne.symm noTree]
  · intro treeArgs listingArgs tokenArgs tree listing tokens sameListing sameTokens
    rw [exit_eq_zero_iff_of_asks tree, exit_eq_zero_iff_of_asks listing,
      exit_eq_zero_iff_of_asks tokens]
    simp only [Opens, ← sameListing, ← sameTokens]
    constructor
    · simp only [prints_tree_iff_listing]
    · rintro ⟨source, opens, output, prints⟩
      exact ⟨source, opens, prints_tokens_of_tree prints⟩

def oneFile : Surroundings :=
  ⟨ByteArray.empty, fun path =>
    if path = "a" then some "x = 1;".toUTF8 else none⟩

/-- Switches before and behind the name of a file that can be compiled. -/
theorem command_has_two_outcomes_of_assignment :
    run oneFile "flat" ["--ast", "a"] = run oneFile "flat" ["a", "--ast"] ∧
      run oneFile "flat" (["a"] ++ "--verbose" :: []) =
        run oneFile "flat" (["a"] ++ []) ∧
      (run oneFile "flat" ["a"]).exit = 0 ∧
      (run oneFile "flat" ["a", "--ast"]).exit = 0 ∧
      (run oneFile "flat" ["--tokens", "a"]).exit = 0 := by
  obtain ⟨_, _, reordered, inserted, stages⟩ :=
    command_has_two_outcomes Text.isEscaped oneFile "flat"
  have listed : (run oneFile "flat" ["a"]).exit = 0 := by decide +kernel
  obtain ⟨treeIff, tokensOfTree⟩ :=
    stages ["a", "--ast"] ["a"] ["--tokens", "a"]
      (.tree (by decide) (by decide)) (.listing (by decide) (by decide))
      (.tokens (by decide)) (by decide) (by decide)
  exact
    ⟨reordered _ _ (by decide) (by decide),
      inserted _ _ _ (by decide) (by decide) (by decide), listed,
      treeIff.mpr listed, tokensOfTree (treeIff.mpr listed)⟩

end FlatCode.CommandLine
