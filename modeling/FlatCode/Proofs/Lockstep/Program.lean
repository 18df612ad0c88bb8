import FlatCode.Program.Parser
import FlatCode.Proofs.Lockstep.Stmt

/-!
# Programs read in step

Two token streams that agree are read to the same program, labels included, or
are refused for the same fault at places that correspond.
-/

namespace FlatCode

open Token (Ending Pairing Parsed Stream)
open Token.Pairing (accept_twins expect_twins expectEnd_twins)

section Readers

variable {pairing : Pairing} {ending other : Ending}
  {tokens others : List Token}

/-- Scopes outside of all loops, with the same functions above. -/
theorem Stmt.Scope.twins_of_endings
    (endings : pairing.Endings ending other) (functions : List Callee)
    (function : Option String) :
    Scope.Twins pairing ⟨⟨ending, functions⟩, function, none⟩
      ⟨⟨other, functions⟩, function, none⟩ :=
  ⟨⟨rfl, endings⟩, rfl, rfl⟩

namespace Function

theorem checkName_twins
    (functions : List Function) {name next : Token}
    (twins : pairing.Twins name next) :
    Concur pairing.Faults Eq (checkName functions name)
      (checkName functions next) := by
  rw [checkName, checkName, twins.payload]
  split
  · exact .error (twins.found _ nofun)
  · exact .ok rfl

theorem checkParam_twins
    (params : List String) {param next : Token}
    (twins : pairing.Twins param next) :
    Concur pairing.Faults Eq (checkParam params param)
      (checkParam params next) := by
  rw [checkParam, checkParam, twins.payload]
  split
  · exact .error (twins.found _ nofun)
  · exact .ok rfl

theorem parseParams_twins
    (endings : pairing.Endings ending other) (params : List String)
    (twins : List.Forall₂ pairing.Twins tokens others) :
    pairing.Agree Eq (parseParams ending params tokens)
      (parseParams other params others) := by
  induction params, tokens using parseParams.induct generalizing others with
  | case1 params tokens inductionHypothesis =>
      rw [parseParams, parseParams]
      refine
        (expect_twins endings .identifier twins).bind
          fun left right token => ?_
      refine
        (checkParam_twins params token.value).bind fun param _ fresh => ?_
      subst fresh
      refine
        (accept_twins endings .comma token.rest).bind fun _ _ separator => ?_
      cases separator with
      | none =>
          exact .ok ⟨rfl, token.rest⟩
      | some comma =>
          refine
            (inductionHypothesis left param _ comma.rest).bind
              fun _ _ all => ?_
          exact .ok ⟨all.value, all.rest⟩

theorem parseSignature_twins
    (endings : pairing.Endings ending other)
    (twins : List.Forall₂ pairing.Twins tokens others) :
    pairing.Agree Eq (parseSignature ending tokens)
      (parseSignature other others) := by
  refine (expect_twins endings .lparen twins).bind fun _ _ opening => ?_
  refine
    (accept_twins endings .rparen opening.rest).bind fun _ _ parenthesis => ?_
  cases parenthesis with
  | some close =>
      exact .ok ⟨rfl, close.rest⟩
  | none =>
      refine
        (parseParams_twins endings [] opening.rest).bind fun _ _ params => ?_
      refine
        (expect_twins endings .rparen params.rest).bind fun _ _ close => ?_
      exact .ok ⟨params.value, close.rest⟩

theorem parse_twins
    (endings : pairing.Endings ending other) (functions : List Function)
    (created : Nat) (twins : List.Forall₂ pairing.Twins tokens others) :
    pairing.Agree Eq (parse ending functions created tokens)
      (parse other functions created others) := by
  refine (expect_twins endings .identifier twins).bind fun _ _ word => ?_
  refine (checkName_twins functions word.value).bind fun name _ fresh => ?_
  subst fresh
  refine
    (parseSignature_twins endings word.rest).bind
      fun leftParams rightParams params => ?_
  refine (expect_twins endings .lbrace params.rest).bind fun _ _ opening => ?_
  have scopes :=
    Stmt.Scope.twins_of_endings endings (functions.map callee) (some name)
  refine
    (Stmt.parseMany_twins scopes opening.rest).bind
      fun leftBody rightBody body => ?_
  refine (expect_twins endings .rbrace body.rest).bind fun _ _ close => ?_
  refine .ok ⟨?_, close.rest⟩
  show
    ((⟨name, leftParams.value, ⟨leftBody.value.2⟩,
        closeBody name leftBody.value.1⟩ : Function),
        leftBody.value.2 + 1) =
      ((⟨name, rightParams.value, ⟨rightBody.value.2⟩,
        closeBody name rightBody.value.1⟩ : Function),
        rightBody.value.2 + 1)
  rw [params.value, body.value]

end Function

namespace Program

theorem parseFunctions_twins
    (endings : pairing.Endings ending other) (functions : List Function)
    (created : Nat) (twins : List.Forall₂ pairing.Twins tokens others) :
    pairing.Agree Eq (parseFunctions ending functions created tokens)
      (parseFunctions other functions created others) := by
  induction functions, created, tokens using parseFunctions.induct
    generalizing others with
  | case1 functions created tokens inductionHypothesis =>
      rw [parseFunctions, parseFunctions]
      refine
        (accept_twins endings .kwDef twins).bind fun _ _ definition => ?_
      cases definition with
      | none =>
          exact .ok ⟨rfl, twins⟩
      | some word =>
          refine
            (Function.parse_twins endings functions created word.rest).bind
              fun leftFunction rightFunction function => ?_
          rw [← function.value]
          refine
            (inductionHypothesis _ leftFunction function.rest).bind
              fun _ _ all => ?_
          exact .ok ⟨all.value, all.rest⟩

/-- Two streams that agree give one program, or the same fault at places that
correspond. -/
theorem ofStream_twins
    {first second : Stream}
    (endings : pairing.Endings first.ending second.ending)
    (twins : List.Forall₂ pairing.Twins first.tokens second.tokens) :
    Concur pairing.Faults Eq (ofStream first) (ofStream second) := by
  refine
    (parseFunctions_twins endings [] 0 twins).bind
      fun leftFunctions rightFunctions functions => ?_
  rw [← functions.value]
  have scopes :=
    Stmt.Scope.twins_of_endings endings
      (leftFunctions.value.1.map Function.callee) none
  refine
    (Stmt.parseMany_twins scopes functions.rest).bind
      fun leftMain rightMain main => ?_
  refine (expectEnd_twins endings main.rest).bind fun _ _ _ => .ok ?_
  rw [main.value]

end Program

end Readers

end FlatCode
