import FlatCode.Proofs.Lockstep.Program
import FlatCode.Proofs.Placement
import FlatCode.Proofs.Token.Origin

/-!
# Layout does not matter

Blanks, comments and line ends are gone once a text is lexed.  They are still
visible in the places of its tokens, but no reader decides anything by a place.
So two texts with the same tokens, wherever they stand, have the same program and
the same listing, or the same fault at the same token.
-/

namespace FlatCode

open Token (Pairing Stream tokenize)

namespace Token

/-- What a token is, apart from where it stands. -/
def shape (token : Token) : Kind × Option String :=
  (token.kind, token.text)

/-- Two places are those of the tokens with one index in two token lists. -/
def SameIndex (tokens others : List Token) (place other : Position) : Prop :=
  ∃ (index : Nat) (token twin : Token),
    tokens[index]? = some token ∧ others[index]? = some twin ∧
      place = token.position ∧ other = twin.position

/-- Places correspond by the index of their tokens, and no line is broken. -/
def layoutPairing (tokens others : List Token) : Pairing where
  places := SameIndex tokens others
  reports _ _ := False

/-- Tokens of the same shapes agree one by one. -/
theorem twins_of_shapes
    {tokens others : List Token}
    (shapes : tokens.map shape = others.map shape) :
    List.Forall₂ (layoutPairing tokens others).Twins tokens others := by
  have sameLength : tokens.length = others.length := by
    simpa using congrArg List.length shapes
  refine List.forall₂_iff_get.mpr ⟨sameLength, ?_⟩
  intro index inside otherInside
  simp only [List.get_eq_getElem]
  have same : tokens[index].shape = others[index].shape := by
    have mapped := congrArg (fun list => list[index]?) shapes
    simpa [inside, otherInside] using mapped
  refine
    ⟨congrArg Prod.fst same, congrArg Prod.snd same, index, tokens[index],
      others[index], ?_, ?_, rfl, rfl⟩
  · exact List.getElem?_eq_getElem inside
  · exact List.getElem?_eq_getElem otherInside

/-- Streams whose tokens have the same shapes agree, together with what stands
behind them. -/
theorem streams_of_shapes
    {pairing : Pairing} {tokens others : List Token} {last otherLast : Token}
    (twins :
      List.Forall₂ pairing.Twins (tokens ++ [last]) (others ++ [otherLast])) :
    List.Forall₂ pairing.Twins tokens others ∧
      pairing.Twins last otherLast := by
  have sameLength : tokens.length = others.length := by
    simpa using twins.length_eq
  have front := List.forall₂_take_append _ _ _ twins
  have back := List.forall₂_drop_append _ _ _ twins
  rw [← sameLength, List.take_left] at front
  rw [← sameLength, List.drop_left] at back
  cases back with
  | cons same _ =>
      exact ⟨front, same⟩

end Token

namespace Program

/-- Two texts whose tokens agree in kind and text have one program and one
listing, or they are refused for the same fault, at the tokens with the same
index. -/
theorem layout_irrelevant
    {first second : String} {tokens others : List Token}
    (lexed : tokenize first = .ok tokens)
    (otherLexed : tokenize second = .ok others)
    (shapes : tokens.map Token.shape = others.map Token.shape) :
    (∃ program listing,
      parse first = .ok program ∧ parse second = .ok program ∧
        compile first = .ok listing ∧ compile second = .ok listing) ∨
      ∃ diagnostic other,
        parse first = .error diagnostic ∧ parse second = .error other ∧
          compile first = .error (.rejected diagnostic) ∧
          compile second = .error (.rejected other) ∧
          diagnostic.stage = other.stage ∧
          diagnostic.message = other.message ∧
          Token.SameIndex tokens others diagnostic.position other.position := by
  have whole := Token.twins_of_shapes shapes
  obtain ⟨last, ended, split⟩ := Token.exists_ending_of_tokenize lexed
  obtain ⟨otherLast, otherEnded, otherSplit⟩ :=
    Token.exists_ending_of_tokenize otherLexed
  have parted :
      List.Forall₂ (Token.layoutPairing tokens others).Twins
        ((Stream.ofString first).tokens ++ [last])
        ((Stream.ofString second).tokens ++ [otherLast]) := by
    rw [← split, ← otherSplit]
    exact whole
  obtain ⟨twins, lasts⟩ := Token.streams_of_shapes parted
  have endings :
      (Token.layoutPairing tokens others).Endings
        (Stream.ofString first).ending (Stream.ofString second).ending := by
    rw [ended, otherEnded]
    exact .ok lasts
  rcases (ofStream_twins endings twins).cases_ends with
    ⟨program, _, read, otherRead, rfl⟩ |
      ⟨diagnostic, other, failed, otherFailed, related⟩
  · obtain ⟨_, lines, _, _, _, compiled⟩ := exists_compile_of_parse read
    refine Or.inl ⟨program, _, read, otherRead, compiled, ?_⟩
    rw [← compiled, compile_of_parse read, compile_of_parse otherRead]
  · cases related with
    | met report =>
        -- Both texts are lexed, so there is no report to meet.
        exact report.elim
    | found fault late place =>
        exact
          Or.inr
            ⟨_, _, failed, otherFailed, compile_of_rejected failed,
              compile_of_rejected otherFailed, rfl, rfl, place⟩

/-- Comments, blank lines and both kinds of line ends around one assignment. -/
theorem layout_irrelevant_to_assignment :
    ∃ program,
      parse "x=1;" = .ok program ∧
        parse "# one\r\n x\n\n = 1 # the end\n;" = .ok program := by
  obtain ⟨tokens, lexed, accepted⟩ :=
    exists_ok_of_any
      (show ((tokenize "x=1;").toOption.any fun tokens =>
          (tokenize "# one\r\n x\n\n = 1 # the end\n;").toOption.any
            fun others =>
              decide (tokens.map Token.shape = others.map Token.shape)) =
          true by
        decide +kernel)
  obtain ⟨others, otherLexed, shapes⟩ := exists_ok_of_any accepted
  obtain ⟨known, readable, _⟩ :=
    exists_of_accepted
      (show ((parse "x=1;").toOption.any fun _ => true) = true by
        decide +kernel)
  rcases layout_irrelevant lexed otherLexed (of_decide_eq_true shapes) with
    ⟨program, _, read, otherRead, _⟩ | ⟨diagnostic, _, failed, _⟩
  · exact ⟨program, read, otherRead⟩
  · rw [readable] at failed
    cases failed

/-- One fault in two layouts, at the third of the tokens. -/
example :
    Fails (parse "x = f(1)") ⟨.semantic, "Unknown function f.", ⟨1, 5⟩⟩ ∧
      Fails (parse "x\n=\nf\n(1)") ⟨.semantic, "Unknown function f.", ⟨3, 1⟩⟩ := by
  decide +kernel

end Program

end FlatCode
