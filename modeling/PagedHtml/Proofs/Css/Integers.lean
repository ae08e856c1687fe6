/-
**Whole numbers in a style sheet.**

Where a sign, perhaps, and digits stand in a style sheet a number is read, with the percent sign or
the unit behind it. Its text writes the same whole number if that is one of 64 bits. Any other goes
through the finite number nearest to it and comes back only if it is the shortest decimal for some
finite number (`Number.IsShortestWhole`): `10000000000000000000` comes back, and
`9223372036854775808` does not.

* `Numeral.writesInteger_css_iff`: when the text of a numeral writes the number it was read from;
* `tokenize_integer_iff`: the same for a whole number anywhere in a style sheet.
-/

import PagedHtml.Proofs.Css.Rereading
import PagedHtml.Proofs.Css.Stretches
import PagedHtml.Proofs.Number.Integers

namespace PagedHtml.Css

open Number (Literal WritesInteger IsShortestWhole signed digitsValue)

/-- **When a whole number is written as itself.** -/
theorem Numeral.writesInteger_css_iff (sign : Option Char) (digits : List Char) :
    let l : Literal := ⟨sign, digits, [], none⟩
    let i := signed sign (digitsValue digits)
    WritesInteger (Numeral.css ⟨l.value, l.integer?⟩).toList i ↔
      (-0x8000000000000000 ≤ i ∧ i < 0x8000000000000000) ∨ IsShortestWhole i.natAbs := by
  intro l i
  have read : l.integer? =
      if -0x8000000000000000 ≤ i ∧ i < 0x8000000000000000 then some i else none := rfl
  have value : l.value = Number.Double.ofDecimal (sign = some '-') (digitsValue digits) 0 := by
    show Number.Double.ofDecimal _ (digitsValue (digits ++ [])) 0 = _
    rw [List.append_nil]
  by_cases range : -0x8000000000000000 ≤ i ∧ i < 0x8000000000000000
  · rw [read, if_pos range, css]
    exact iff_of_true (Literal.writesInteger_ofInt i) (.inl range)
  · have positive : 0 < digitsValue digits := by
      refine Nat.pos_of_ne_zero fun zero => range ?_
      simp [i, zero, signed]
    rw [read, if_neg range, css, value, or_iff_right range, Number.natAbs_signed]
    exact Number.Double.writesInteger_ofDecimal_iff positive sign

/-- The numeral of a token, and what is written behind it. -/
def Token.numeral? : Token → Option (Numeral × String)
  | number n => some (n, "")
  | percentage n => some (n, "%")
  | dimension n unit => some (n, unit)
  | _ => none

theorem Token.css_of_numeral? {token : Token} {n : Numeral} {suffix : String}
    (numeral : token.numeral? = some (n, suffix)) : token.css = n.css ++ suffix := by
  cases token with
  | number m | percentage m | dimension m unit =>
    obtain ⟨rfl, rfl⟩ := Prod.mk.inj (Option.some.inj numeral)
    simp [css]
  | _ => cases numeral

/-- A number is taken with the percent sign or the unit behind it. -/
theorem Lexer.exists_numericToken (chars : List Char) :
    ∃ unit left token suffix, (Literal.take chars).2 = unit ++ left ∧
      numericToken chars = ⟨token, none, left⟩ ∧
      token.numeral? =
        some (⟨(Literal.take chars).1.value, (Literal.take chars).1.integer?⟩, suffix) := by
  rw [numericToken_eq]
  generalize Literal.take chars = taken
  obtain ⟨literal, after⟩ := taken
  simp only
  split_ifs with unit percent
  · obtain ⟨name, split⟩ := Scan.takeName_suffix after
    exact ⟨name, _, _, _, split.symm, rfl, rfl⟩
  · obtain ⟨more, rfl⟩ := List.head?_eq_some_iff.mp percent
    exact ⟨['%'], more, _, _, rfl, rfl, rfl⟩
  · exact ⟨[], after, _, _, rfl, rfl, rfl⟩

/-- **A whole number anywhere in a style sheet is read as a number**, perhaps with a percent sign or
a unit behind it, whose text writes the same whole number just if that is one of 64 bits or, its
sign aside, the shortest decimal for some finite number. -/
theorem tokenize_integer_iff {text : String} {before after : List Stretch}
    {literal rest : List Char} {i : Int} (divides : Divides text.toList (before ++ after))
    (place : text.toList = before.flatMap Stretch.chars ++ (literal ++ rest))
    (integer : WritesInteger literal i) (whole : (Literal.take (literal ++ rest)).2 = rest) :
    ∃ token n suffix unit others, after = .token (literal ++ unit) token none :: others ∧
      (tokenize text).tokens = before.filterMap Stretch.token? ++
        token :: (others.filterMap Stretch.token? ++ [.endOfFile]) ∧
      token.numeral? = some (n, suffix) ∧ token.css = n.css ++ suffix ∧
      (WritesInteger n.css.toList i ↔
        (-0x8000000000000000 ≤ i ∧ i < 0x8000000000000000) ∨ IsShortestWhole i.natAbs) := by
  obtain ⟨here, split, dividesHere⟩ := divides.behind
  obtain rfl : literal ++ rest = here := List.append_cancel_left (place.symm.trans split)
  obtain ⟨sign, digits, isSigned, rfl, rfl⟩ := integer
  have taken := Literal.take_integer isSigned whole
  obtain ⟨unit, left, token, suffix, behind, step, numeral⟩ :=
    Lexer.exists_numericToken (sign.toList ++ digits ++ rest)
  rw [taken] at behind numeral
  obtain rfl : rest = unit ++ left := behind
  obtain ⟨c, more, first⟩ := List.exists_cons_of_ne_nil
    (List.append_ne_nil_of_right_ne_nil sign.toList isSigned.ne_nil)
  have front : sign.toList ++ digits ++ (unit ++ left) = c :: (more ++ unit ++ left) := by
    rw [first, List.append_assoc]
    rfl
  have noComment : ¬ ['/', '*'] <+: c :: (more ++ unit ++ left) := by
    intro starts
    obtain ⟨rfl, -⟩ := List.cons_prefix_cons.mp starts
    have member : '/' ∈ sign.toList ++ digits := first ▸ List.mem_cons_self
    exact absurd (isSigned.mem member) (by decide)
  rw [front] at step dividesHere
  have read : Lexer.tokenAt c (more ++ unit ++ left) = ⟨token, none, left⟩ := by
    rw [← step]
    exact Lexer.tokenAt_digits isSigned ((List.append_assoc ..).symm.trans front)
  obtain ⟨others, rfl, -⟩ := dividesHere.of_token noComment read
  refine ⟨token, _, suffix, unit, others, ?_, ?_, numeral, Token.css_of_numeral? numeral, ?_⟩
  · rw [first, List.cons_append]
  · rw [tokenize, divides.tokenizeChars_eq, List.filterMap_append, List.append_assoc]
    rfl
  · rw [← Number.digitsValue_eq]
    exact Numeral.writesInteger_css_iff sign digits

/-- A power of ten beyond 64 bits, before a unit. -/
theorem tokenize_integer_power :
    (tokenize "10000000000000000000px").tokens =
        [.dimension ⟨⟨false, 4891288408196988160⟩, none⟩ "px", .endOfFile] ∧
      WritesInteger "10000000000000000000".toList 10000000000000000000 ∧
      IsShortestWhole 10000000000000000000 := by
  have tokens : (tokenize "10000000000000000000px").tokens =
      [.dimension ⟨⟨false, 4891288408196988160⟩, none⟩ "px", .endOfFile] := by decide +kernel
  have text : Numeral.css ⟨⟨false, 4891288408196988160⟩, none⟩ = "10000000000000000000" := by
    decide +kernel
  have integer : WritesInteger "10000000000000000000".toList 10000000000000000000 :=
    Literal.writesInteger_ofInt 10000000000000000000
  obtain ⟨after, divides⟩ := exists_divides "10000000000000000000px".toList
  obtain ⟨token, n, suffix, unit, others, -, read, numeral, -, writes⟩ :=
    @tokenize_integer_iff _ [] after _ "px".toList _ divides rfl integer (by decide +kernel)
  rw [tokens] at read
  obtain ⟨rfl, -⟩ := List.cons.inj read
  obtain ⟨rfl, -⟩ := Prod.mk.inj (Option.some.inj numeral)
  rw [text] at writes
  exact ⟨tokens, integer, (writes.mp integer).resolve_left (by decide)⟩

/-- **The first whole number beyond 64 bits is written as another one.** -/
theorem tokenize_integer_rounded :
    WritesInteger "9223372036854775808".toList 9223372036854775808 ∧
      ∃ n, (tokenize "9223372036854775808").tokens = [.number n, .endOfFile] ∧
        n.css = "9223372036854776000" ∧ ¬ WritesInteger n.css.toList 9223372036854775808 := by
  have text : Numeral.css ⟨⟨false, 4890909195324358656⟩, none⟩ = "9223372036854776000" := by
    decide +kernel
  refine ⟨Literal.writesInteger_ofInt 9223372036854775808,
    ⟨⟨false, 4890909195324358656⟩, none⟩, by decide +kernel, text, fun writes => ?_⟩
  rw [text] at writes
  have other := Literal.writesInteger_ofInt 9223372036854776000
  exact absurd (Literal.writesInteger_unique writes other) (by decide)

end PagedHtml.Css
