/-
**Numeric tokens are read from complete literals.**

Wherever a text has a numeric token, a complete literal stands at the front of what remains there,
with the percent sign or the unit behind it, and no longer complete literal stands there. It is read
as the value of the token, and as a whole number just if it writes one of 64 bits.

* `exists_behind_of_tokens`: every token of a text is the first of some end of the text;
* `Lexer.exists_literal_of_tokenAt`: where a token has a numeral, a complete literal is taken;
* `tokenize_numeral`: what the literal of a numeric token is.
-/

import PagedHtml.Proofs.Css.Integers
import PagedHtml.Proofs.Css.Interposing

namespace PagedHtml.Css

open Number (Double Literal WritesInteger)

variable {text : String} {front back : List Token} {token : Token} {n : Numeral} {suffix : String}

/-- Before the last element of a list stands every other one. -/
theorem exists_concat_of_append_eq {α : Type} {list front back : List α} {last a : α}
    (split : list ++ [last] = front ++ a :: back) (other : a ≠ last) :
    ∃ behind, back = behind ++ [last] ∧ list = front ++ a :: behind := by
  rcases List.eq_nil_or_concat back with rfl | ⟨behind, b, rfl⟩
  · obtain ⟨-, same⟩ := List.append_inj' split rfl
    exact absurd (List.cons.inj same).1.symm other
  · rw [List.concat_eq_append, ← List.cons_append, ← List.append_assoc] at split
    obtain ⟨rfl, same⟩ := List.append_inj' split rfl
    obtain rfl := (List.cons.inj same).1
    exact ⟨behind, List.concat_eq_append, rfl⟩

/-- **Every token of a text but the last is the first of some end of the text**, and those behind it
are the tokens of what it leaves. -/
theorem exists_behind_of_tokens (tokens : (tokenize text).tokens = front ++ token :: back)
    (notEnd : token ≠ .endOfFile) :
    ∃ before c more fault rest, text.toList = before ++ c :: more ∧
      Lexer.tokenAt c more = ⟨token, fault, rest⟩ ∧
      (tokenizeChars (c :: more)).tokens = token :: back ∧ (tokenizeChars rest).tokens = back := by
  obtain ⟨stretches, divides⟩ := exists_divides text.toList
  rw [tokenize, divides.tokenizeChars_eq] at tokens
  obtain ⟨behind, rfl, others⟩ := exists_concat_of_append_eq tokens notEnd
  obtain ⟨earlier, further, rfl, -, later⟩ := List.filterMap_eq_append_iff.mp others
  obtain ⟨comments, stretch, after, rfl, none, isToken, rfl⟩ := List.filterMap_eq_cons_iff.mp later
  rw [← List.append_assoc] at divides
  obtain ⟨remaining, place, dividesHere⟩ := divides.behind
  cases dividesHere with
  | comment | openComment => cases isToken
  | @token c more rest value fault _ noComment taken dividesRest =>
    obtain rfl : value = token := Option.some.inj isToken
    have behindHere : (tokenizeChars rest).tokens =
        after.filterMap Stretch.token? ++ [.endOfFile] := by
      rw [dividesRest.tokenizeChars_eq]
    refine ⟨_, c, more ++ rest, fault, rest, place, taken, ?_, behindHere⟩
    rw [tokenizeChars_token noComment taken, behindHere]

/-- A token with a numeral stands where a number starts, and is taken with its percent sign or unit.
-/
theorem Lexer.exists_literal_of_tokenAt {c : Char} {more rest : List Char}
    {fault : Option LexFault} (taken : tokenAt c more = ⟨token, fault, rest⟩)
    (numeral : token.numeral? = some (n, suffix)) :
    ∃ l unit, Literal.take (c :: more) = (l, unit ++ rest) ∧ l.IsComplete ∧
      n = ⟨l.value, l.integer?⟩ := by
  have numeric : IsNumeric (tokenAt c more).token := by
    rw [taken]
    cases token with
    | number m => exact ⟨m, .inl rfl⟩
    | percentage m => exact ⟨m, .inr (.inl rfl)⟩
    | dimension m unit => exact ⟨m, .inr (.inr ⟨unit, rfl⟩)⟩
    | _ => cases numeral
  have starts := startsNumber_of_isNumeric numeric
  obtain ⟨unit, left, other, suffixOther, behind, step, numeralOther⟩ :=
    exists_numericToken (c :: more)
  rw [← tokenAt_of_startsNumber starts, taken] at step
  obtain ⟨rfl, -, rfl⟩ := Step.mk.inj step
  obtain ⟨rfl, -⟩ := Prod.mk.inj (Option.some.inj (numeral.symm.trans numeralOther))
  exact ⟨_, unit, Prod.ext rfl behind, Literal.isComplete_take (Scan.startsNumber_iff.mp starts),
    rfl⟩

/-- **A numeric token is read from the longest complete literal** at the front of what remains of
the text: no longer complete literal stands there. Its text is always read, as the value of the
token, and the token has a whole number just if the literal writes one of 64 bits. -/
theorem tokenize_numeral (tokens : (tokenize text).tokens = front ++ token :: back)
    (numeral : token.numeral? = some (n, suffix)) :
    ∃ before l unit rest, text.toList = before ++ (l.text ++ (unit ++ rest)) ∧
      (tokenize (String.ofList (l.text ++ (unit ++ rest)))).tokens = token :: back ∧
      (tokenize (String.ofList rest)).tokens = back ∧
      Literal.take (l.text ++ (unit ++ rest)) = (l, unit ++ rest) ∧ l.IsComplete ∧
      (∀ other : Literal, other.IsComplete → other.text <+: l.text ++ (unit ++ rest) →
        other.text <+: l.text) ∧
      Double.ofText? (String.ofList l.text) = some n.value ∧
      ∀ i, n.integer = some i ↔
        WritesInteger l.text i ∧ -0x8000000000000000 ≤ i ∧ i < 0x8000000000000000 := by
  have notEnd : token ≠ .endOfFile := by
    rintro rfl
    cases numeral
  obtain ⟨before, c, more, fault, rest, place, taken, here, later⟩ :=
    exists_behind_of_tokens tokens notEnd
  obtain ⟨l, unit, literal, complete, rfl⟩ := Lexer.exists_literal_of_tokenAt taken numeral
  have whole : c :: more = l.text ++ (unit ++ rest) := by
    rw [← Literal.take_text (c :: more), literal]
  rw [whole] at place literal here
  refine ⟨before, l, unit, rest, place, ?_, ?_, literal, complete, fun other isOther starts => ?_,
    complete.ofText?_text, fun i => complete.integer?_eq_some_iff⟩
  · rw [tokenize, String.toList_ofList, here]
  · rw [tokenize, String.toList_ofList, later]
  · have longest := isOther.prefix_take starts
    rwa [literal] at longest

/-- A whole number before a unit that could be the mark of an exponent, and a point behind it. -/
theorem tokenize_numeral_dangling :
    (tokenize "-12e.5").tokens =
        [.dimension ⟨(Double.ofNat 12).negate, some (-12)⟩ "e",
          .number ⟨Double.ofRatio false 1 2, none⟩, .endOfFile] ∧
      ∃ l : Literal, l.IsComplete ∧ l.text <:+: "-12e.5".toList ∧ WritesInteger l.text (-12) ∧
        Double.ofText? (String.ofList l.text) = some (Double.ofNat 12).negate := by
  have tokens : (tokenize "-12e.5").tokens =
      [.dimension ⟨(Double.ofNat 12).negate, some (-12)⟩ "e",
        .number ⟨Double.ofRatio false 1 2, none⟩, .endOfFile] := by decide +kernel
  obtain ⟨before, l, unit, rest, place, here, -, -, complete, -, value, integer⟩ :=
    @tokenize_numeral _ [] _ _ _ _ tokens rfl
  have split : "-12e.5".toList = before ++ l.text ++ (unit ++ rest) := by
    rw [place, List.append_assoc]
  exact ⟨tokens, l, complete, ⟨before, unit ++ rest, split.symm⟩, ((integer (-12)).mp rfl).1, value⟩

end PagedHtml.Css
