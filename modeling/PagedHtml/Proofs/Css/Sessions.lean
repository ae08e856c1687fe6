/-
**A parser can be asked again and again, over any tokens.**

A request takes tokens from the front of what is left and nothing else (`Parser.rest_ask`). Whatever
the tokens are, an accepted request leaves the parser at the end: behind the last token, or on a
mark of the end (`Request.read_stopsAtEnd`). There every request is answered with nothing
(`Request.read_of_atEnd`), so that the parser stays where it is.

* `Parser.ask_congr`: what a request depends on;
* `Parser.ask_of_atEnd`, `Parser.after_of_atEnd`: a parser at the end is there for good;
* `Parser.session`: a request after any others.
-/

import PagedHtml.Css.Parser
import PagedHtml.Proofs.Css.Declarations

namespace PagedHtml.Css

/-- Whether nothing is left, or the mark of the end stands first. -/
def AtEnd (tokens : List Token) : Prop := tokens = [] ∨ tokens.head? = some .endOfFile

namespace Outcome

variable {α β : Type}

/-- Whether the reader has come to the end if it accepts. -/
def StopsAtEnd (outcome : Outcome α) : Prop :=
  ∀ value rest, outcome = .ok value rest → AtEnd rest

theorem stopsAtEnd_refuse (fault : Fault) (rest : List Token) :
    (refuse fault rest : Outcome α).StopsAtEnd :=
  fun _ _ accepted => absurd accepted refuse_ne_ok

theorem stopsAtEnd_ok (value : α) {rest : List Token} (atEnd : AtEnd rest) :
    (ok value rest).StopsAtEnd := by
  intro other left same
  obtain ⟨-, rfl⟩ := Outcome.mk.inj same
  exact atEnd

theorem StopsAtEnd.map {outcome : Outcome α} (stops : outcome.StopsAtEnd) (f : α → β) :
    (outcome.map f).StopsAtEnd := by
  intro value rest accepted
  obtain ⟨kept, same, -⟩ := map_eq_ok_iff.mp accepted
  exact stops kept rest same

end Outcome

/-! ### The readers at the end -/

theorem Rule.readAll_stopsAtEnd (tokens : List Token) : (readAll tokens).StopsAtEnd := by
  fun_induction readAll tokens with
  | case1 => exact Outcome.stopsAtEnd_ok [] (.inl rfl)
  | case2 _ ih | case3 _ ih | case4 _ ih => exact ih
  | case5 => exact Outcome.stopsAtEnd_ok [] (.inr rfl)
  | case6 | case7 | case9 => exact Outcome.stopsAtEnd_refuse _ _
  | case8 _ _ _ _ _ ih => exact ih
  | case10 => rename_i ih; exact ih.map _

theorem Declaration.readAll_stopsAtEnd (tokens : List Token) :
    (readAll false tokens).StopsAtEnd := by
  fun_induction readAll false tokens with
  | case1 | case5 | case7 => contradiction
  | case2 => exact Outcome.stopsAtEnd_ok [] (.inl rfl)
  | case3 _ ih | case4 _ ih => exact ih
  | case6 => exact Outcome.stopsAtEnd_ok [] (.inr rfl)
  | case8 | case9 | case11 | case13 => exact Outcome.stopsAtEnd_refuse _ _
  | case10 _ _ _ _ _ ih => exact ih
  | case12 => rename_i ih; exact ih.map _

namespace Request

/-- **An accepted request leaves the end.** -/
theorem read_stopsAtEnd (request : Request) (tokens : List Token) :
    (request.read tokens).StopsAtEnd := by
  cases request with
  | rules => exact Rule.readAll_stopsAtEnd tokens
  | declarations => exact Declaration.readAll_stopsAtEnd tokens

/-- **At the end there is nothing to read.** -/
theorem read_of_atEnd (request : Request) {tokens : List Token} (atEnd : AtEnd tokens) :
    request.read tokens = .ok [] tokens := by
  rcases atEnd with rfl | marked
  · cases request with
    | rules =>
      show Rule.readAll [] = _
      rw [Rule.readAll]
      rfl
    | declarations =>
      show Declaration.readAll false [] = _
      rw [Declaration.readAll]
      rfl
  · obtain ⟨rest, rfl⟩ := List.head?_eq_some_iff.mp marked
    cases request with
    | rules =>
      show Rule.readAll (.endOfFile :: rest) = _
      rw [Rule.readAll]
      rfl
    | declarations =>
      show Declaration.readAll false (.endOfFile :: rest) = _
      rw [Declaration.readAll]
      rfl

end Request

/-! ### Requests one after another -/

namespace Parser

variable {parser : Parser}

theorem tokens_after (parser : Parser) (requests : List Request) :
    (parser.after requests).tokens = parser.tokens := by
  induction requests generalizing parser with
  | nil => rfl
  | cons request requests ih => exact ih (parser.ask request).2

/-- A request at the end is answered with nothing, and changes nothing. -/
theorem ask_of_atEnd (atEnd : AtEnd parser.rest) (request : Request) :
    parser.ask request = (.ok [], parser) := by
  have nothing := request.read_of_atEnd atEnd
  refine Prod.ext ?_ (ext_rest rfl ?_)
  · rw [result_ask, nothing]
    rfl
  · rw [rest_ask, nothing]
    rfl

/-- **A parser at the end is there for good.** -/
theorem after_of_atEnd (atEnd : AtEnd parser.rest) (requests : List Request) :
    parser.after requests = parser := by
  induction requests with
  | nil => rfl
  | cons request requests ih =>
    rw [after_cons, ask_of_atEnd atEnd]
    exact ih

/-- **What a request does depends on what is left of the tokens only.** -/
theorem ask_congr {other : Parser} (same : other.rest = parser.rest) (request : Request) :
    (other.ask request).1 = (parser.ask request).1 ∧
      (other.ask request).2.rest = (parser.ask request).2.rest ∧
      (other.ask request).2.position - other.position =
        (parser.ask request).2.position - parser.position := by
  have read : (other.ask request).2.rest = (parser.ask request).2.rest := by
    rw [rest_ask, rest_ask, same]
  refine ⟨by rw [result_ask, result_ask, same], read, ?_⟩
  have before := congrArg List.length same
  have behind := congrArg List.length read
  have inside := parser.inside
  have insideOther := other.inside
  have insideNext := (parser.ask request).2.inside
  have insideOtherNext := (other.ask request).2.inside
  simp only [length_rest, tokens_ask] at before behind insideNext insideOtherNext
  omega

/-- Where an accepted request leaves the parser. -/
theorem atEnd_ask {request : Request} {items : List request.Item}
    (accepted : (parser.ask request).1 = .ok items) : AtEnd (parser.ask request).2.rest := by
  rw [rest_ask]
  exact request.read_stopsAtEnd parser.rest items _ (Outcome.eq_ok accepted)

/-- The place of a parser at the end. -/
theorem position_of_atEnd (atEnd : AtEnd parser.rest) :
    parser.position = parser.tokens.length ∨
      parser.tokens[parser.position]? = some .endOfFile := by
  rcases atEnd with nothing | marked
  · have inside := parser.inside
    have outside := List.drop_eq_nil_iff.mp nothing
    exact .inl (by omega)
  · rw [rest, List.head?_drop] at marked
    exact .inr marked

/-- **A request after any others, over any tokens.** It goes forward from the place of the parser
and not beyond the last token, and depends on the tokens from that place only. If it is accepted,
the parser is at the end, and whatever is asked of it then is answered with nothing and leaves it
there. -/
theorem session (tokens : List Token) (requests : List Request) (request : Request) :
    let parser := (new tokens).after requests
    let next := (parser.ask request).2
    parser.tokens = tokens ∧ next.tokens = tokens ∧
      parser.position ≤ next.position ∧ next.position ≤ tokens.length ∧
      (∀ other : Parser, other.rest = parser.rest →
        (other.ask request).1 = (parser.ask request).1 ∧
          (other.ask request).2.rest = next.rest ∧
          (other.ask request).2.position - other.position = next.position - parser.position) ∧
      ∀ items, (parser.ask request).1 = .ok items →
        (next.position = tokens.length ∨ tokens[next.position]? = some .endOfFile) ∧
          ∀ later again, (next.after later).ask again = (.ok [], next) := by
  intro parser next
  have same : parser.tokens = tokens := tokens_after (new tokens) requests
  have sameNext : next.tokens = tokens := same
  refine ⟨same, sameNext, position_le_ask request parser, ?_,
    fun other rest => ask_congr rest request, ?_⟩
  · rw [← sameNext]
    exact next.inside
  · intro items accepted
    have atEnd : AtEnd next.rest := atEnd_ask accepted
    have place := position_of_atEnd atEnd
    rw [sameNext] at place
    refine ⟨place, fun later again => ?_⟩
    rw [after_of_atEnd atEnd, ask_of_atEnd atEnd]

end Parser

end PagedHtml.Css
