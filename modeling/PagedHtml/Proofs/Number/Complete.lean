/-
**A literal is the longest complete one.**

A complete literal (`Literal.IsComplete`) is a sign, perhaps, digits, perhaps a point with digits
behind it, and perhaps an exponent with digits of its own; a digit stands before the exponent. A
point or the mark of an exponent that no digit follows is no part of it, whatever comes behind.

* `isComplete_take`: what is taken where a number starts is complete;
* `take_append_suffix`: what is left behind is no more than what stands behind any complete literal;
* `IsComplete.prefix_take`: so no complete literal at the front is longer;
* `IsComplete.ofText?_text`: its text is read as its value.
-/

import PagedHtml.Number.Pointed
import PagedHtml.Proofs.Number.Written
import Mathlib.Data.List.TakeWhile

namespace PagedHtml.Number

open Literal (IsSigned takeExponent takeFraction takeSign fractionText)

/-- **A complete exponent**: a mark, perhaps a sign, and digits. -/
structure Exponent.IsComplete (e : Exponent) : Prop where
  isMark : e.mark = 'e' ∨ e.mark = 'E'
  isSigned : IsSigned e.sign e.digits

/-- **A complete literal**: perhaps a sign, digits before the point or behind it, and perhaps an
exponent. -/
structure Literal.IsComplete (l : Literal) : Prop where
  isSign : ∀ c ∈ l.sign, c = '+' ∨ c = '-'
  isDigit_whole : ∀ c ∈ l.whole, c.isDigit = true
  isDigit_fraction : ∀ c ∈ l.fraction, c.isDigit = true
  hasDigit : l.whole ≠ [] ∨ l.fraction ≠ []
  exponent : ∀ e ∈ l.exponent, e.IsComplete

theorem Literal.IsPositional.isComplete {l : Literal} (positional : l.IsPositional) :
    l.IsComplete where
  isSign c member := .inr (positional.sign c member)
  isDigit_whole := positional.isDigit_whole
  isDigit_fraction := positional.isDigit_fraction
  hasDigit := .inl positional.whole_ne_nil
  exponent := by rw [positional.exponent]; exact nofun

namespace Exponent.IsComplete

variable {e : Exponent}

theorem isDigit_mark (complete : e.IsComplete) : e.mark.isDigit = false := by
  rcases complete.isMark with mark | mark <;> rw [mark] <;> decide

/-- A complete exponent is taken with the digits behind it. -/
theorem takeExponent_append (complete : e.IsComplete) (rest : List Char) :
    takeExponent (e.text ++ rest) =
      (some ⟨e.mark, e.sign, e.digits ++ rest.takeWhile Char.isDigit⟩,
        rest.dropWhile Char.isDigit) := by
  have isDigit := complete.isSigned.isDigit
  have sign := Literal.takeSign_append_digits complete.isSigned rest
  have mark : (e.mark == 'e' || e.mark == 'E') = true := by
    rcases complete.isMark with same | same <;> rw [same] <;> rfl
  have starts : Literal.startsWithDigit (e.digits ++ rest) = true := by
    obtain ⟨d, more, digits⟩ := List.exists_cons_of_ne_nil complete.isSigned.ne_nil
    rw [digits]
    exact isDigit d (digits ▸ List.mem_cons_self)
  show takeExponent (e.mark :: (e.sign.toList ++ e.digits ++ rest)) = _
  rw [List.append_assoc, takeExponent, sign]
  simp only [mark, starts, Bool.and_self, if_true, Literal.takeWhile_isDigit_append isDigit,
    Literal.dropWhile_isDigit_append isDigit]

end Exponent.IsComplete

namespace Literal

variable {l : Literal} {chars rest : List Char}

/-! ### What is taken -/

theorem isSign_takeSign (chars : List Char) : ∀ c ∈ (takeSign chars).1, c = '+' ∨ c = '-' := by
  intro c member
  cases chars with
  | nil => cases member
  | cons d rest =>
    rw [takeSign] at member
    split at member
    · next signed =>
      obtain rfl : d = c := Option.some.inj member
      simpa using signed
    · cases member

theorem isDigit_takeFraction (chars : List Char) :
    ∀ c ∈ (takeFraction chars).1, c.isDigit = true := by
  intro c member
  cases chars with
  | nil => cases member
  | cons d rest =>
    rw [takeFraction] at member
    split at member
    · exact List.mem_takeWhile_imp member
    · cases member

theorem isComplete_takeExponent (chars : List Char) :
    ∀ e ∈ (takeExponent chars).1, e.IsComplete := by
  intro e member
  cases chars with
  | nil => cases member
  | cons c rest =>
    have isSign := isSign_takeSign rest
    generalize taken : takeSign rest = signed at isSign
    obtain ⟨sign, digits⟩ := signed
    simp only [takeExponent, taken] at member
    split at member
    · next marked =>
      obtain rfl := Option.some.inj member
      rw [Bool.and_eq_true] at marked
      refine ⟨by simpa using marked.1, isSign, fun nothing => ?_, fun d => List.mem_takeWhile_imp⟩
      rw [startsWithDigit_eq_false_iff.mpr nothing] at marked
      cases marked.2
    · cases member

/-- **What is taken is complete** if digits are taken before the exponent. -/
theorem isComplete_take
    (hasDigit : (take chars).1.whole ≠ [] ∨ (take chars).1.fraction ≠ []) :
    (take chars).1.IsComplete where
  isSign := isSign_takeSign chars
  isDigit_whole _ := List.mem_takeWhile_imp
  isDigit_fraction := isDigit_takeFraction _
  hasDigit := hasDigit
  exponent := isComplete_takeExponent _

/-! ### What is left -/

/-- The characters of an exponent, if there is one. -/
def exponentText (exponent : Option Exponent) : List Char := (exponent.map Exponent.text).getD []

theorem text_eq (l : Literal) :
    l.text =
      l.sign.toList ++ (l.whole ++ (fractionText l.fraction ++ exponentText l.exponent)) := by
  rw [text, exponentText, List.append_assoc, List.append_assoc]

section

variable {exponent : Option Exponent}

/-- Neither digits nor a point stand at the front of an exponent. -/
theorem takeExponent_some {e : Exponent} (complete : e.IsComplete) (rest : List Char) :
    (exponentText (some e) ++ rest).takeWhile Char.isDigit = [] ∧
      (exponentText (some e) ++ rest).dropWhile Char.isDigit = exponentText (some e) ++ rest ∧
      takeFraction (exponentText (some e) ++ rest) = ([], exponentText (some e) ++ rest) := by
  have noDigit : ¬ e.mark.isDigit = true := by rw [complete.isDigit_mark]; exact Bool.false_ne_true
  have noPoint : ¬ (e.mark == '.') = true := by
    rcases complete.isMark with mark | mark <;> rw [mark] <;> decide
  have front : exponentText (some e) ++ rest = e.mark :: (e.sign.toList ++ e.digits ++ rest) := rfl
  rw [front]
  refine ⟨List.takeWhile_cons_of_neg noDigit, List.dropWhile_cons_of_neg noDigit, ?_⟩
  rw [takeFraction, if_neg]
  simp [noPoint]

/-- What is left behind digits and an exponent, where one may stand. -/
theorem takeExponent_dropWhile_suffix (complete : ∀ e ∈ exponent, e.IsComplete) (rest : List Char) :
    (takeExponent ((exponentText exponent ++ rest).dropWhile Char.isDigit)).2 <:+ rest := by
  cases exponent with
  | none => exact (takeExponent_suffix _).trans (List.dropWhile_suffix _)
  | some e =>
    rw [(takeExponent_some (complete e rfl) rest).2.1]
    show (takeExponent (e.text ++ rest)).2 <:+ rest
    rw [(complete e rfl).takeExponent_append]
    exact List.dropWhile_suffix _

end

/-- The digits of a complete literal start with no sign. -/
theorem IsComplete.head?_ne_sign (complete : l.IsComplete) (rest : List Char) :
    ∀ c ∈ (l.whole ++ (fractionText l.fraction ++ rest)).head?, c ≠ '+' ∧ c ≠ '-' := by
  intro c member
  cases whole : l.whole with
  | cons d more =>
    obtain rfl : d = c := by simpa [whole] using member
    exact ne_sign_of_isDigit (complete.isDigit_whole d (whole ▸ List.mem_cons_self))
  | nil =>
    obtain ⟨d, more, fraction⟩ :=
      List.exists_cons_of_ne_nil (complete.hasDigit.resolve_left (absurd whole))
    obtain rfl : '.' = c := by simpa [whole, fraction, fractionText] using member
    decide

/-- **What is left of a text is no more than what stands behind a complete literal at its front.**
-/
theorem IsComplete.take_append_suffix (complete : l.IsComplete) (rest : List Char) :
    (take (l.text ++ rest)).2 <:+ rest := by
  have split : l.text ++ rest = l.sign.toList ++ (l.whole ++ (fractionText l.fraction ++
      (exponentText l.exponent ++ rest))) := by
    rw [text_eq]
    simp only [List.append_assoc]
  rw [split, take, takeSign_append_unsigned complete.isSign (complete.head?_ne_sign _)]
  simp only [dropWhile_isDigit_append complete.isDigit_whole]
  by_cases fraction : l.fraction = []
  · rw [fraction, fractionText, List.nil_append]
    cases exponent : l.exponent with
    | none =>
      exact (takeExponent_suffix _).trans ((takeFraction_suffix _).trans (List.dropWhile_suffix _))
    | some e =>
      obtain ⟨-, digits, point⟩ := takeExponent_some (complete.exponent e exponent) rest
      have behind := takeExponent_dropWhile_suffix complete.exponent rest
      rw [exponent, digits] at behind
      rw [digits, point]
      exact behind
  · have stops : (fractionText l.fraction ++ (exponentText l.exponent ++ rest)).dropWhile
        Char.isDigit = fractionText l.fraction ++ (exponentText l.exponent ++ rest) := by
      obtain ⟨d, more, digits⟩ := List.exists_cons_of_ne_nil fraction
      rw [digits]
      rfl
    rw [stops, takeFraction_append_digits fraction complete.isDigit_fraction]
    exact takeExponent_dropWhile_suffix complete.exponent rest

/-- **No complete literal at the front of a text is longer than the one that is taken.** -/
theorem IsComplete.prefix_take (complete : l.IsComplete) (front : l.text <+: chars) :
    l.text <+: (take chars).1.text := by
  obtain ⟨rest, rfl⟩ := front
  obtain ⟨between, behind⟩ := complete.take_append_suffix rest
  have whole : (take (l.text ++ rest)).1.text ++ (take (l.text ++ rest)).2 =
      l.text ++ between ++ (take (l.text ++ rest)).2 := by
    rw [take_text, List.append_assoc, behind]
  exact ⟨between, (List.append_cancel_right whole).symm⟩

/-! ### The value of a complete literal -/

/-- An exponent is taken with nothing left, behind no digits and no point. -/
theorem takeExponent_exponentText {exponent : Option Exponent}
    (complete : ∀ e ∈ exponent, e.IsComplete) :
    takeExponent (exponentText exponent) = (exponent, []) ∧
      (exponentText exponent).takeWhile Char.isDigit = [] ∧
      (exponentText exponent).dropWhile Char.isDigit = exponentText exponent ∧
      (exponentText exponent).head? ≠ some '.' := by
  cases exponent with
  | none => exact ⟨rfl, rfl, rfl, nofun⟩
  | some e =>
    obtain ⟨none, all, -⟩ := takeExponent_some (complete e rfl) []
    have taken := (complete e rfl).takeExponent_append []
    rw [List.append_nil] at none all taken
    refine ⟨taken.trans ?_, none, all, fun point => ?_⟩
    · rw [List.takeWhile_nil, List.append_nil, List.dropWhile_nil]
    · have mark : e.mark = '.' := Option.some.inj point
      rcases (complete e rfl).isMark with same | same <;> rw [same] at mark <;> cases mark

/-- Digits and a point are taken before an exponent. -/
theorem IsComplete.takePointed?_text (complete : l.IsComplete) :
    takePointed? l.text = some (⟨l.sign, l.whole, l.fraction, none⟩, exponentText l.exponent) := by
  obtain ⟨-, noDigits, all, noPoint⟩ := takeExponent_exponentText complete.exponent
  have sign := takeSign_append_unsigned complete.isSign
    (complete.head?_ne_sign (exponentText l.exponent))
  rw [takePointed?, text_eq, sign]
  simp only [takeWhile_isDigit_append complete.isDigit_whole,
    dropWhile_isDigit_append complete.isDigit_whole]
  cases fraction : l.fraction with
  | nil =>
    have digits : l.whole.isEmpty = false :=
      List.isEmpty_eq_false_iff.mpr (complete.hasDigit.resolve_right (absurd fraction))
    rw [fractionText, List.nil_append, noDigits, all, List.append_nil]
    split
    · next point => exact absurd (point ▸ rfl) noPoint
    · simp [digits]
  | cons d more =>
    have isDigit := complete.isDigit_fraction
    rw [fraction] at isDigit
    have point : fractionText (d :: more) ++ exponentText l.exponent =
        '.' :: ((d :: more) ++ exponentText l.exponent) := rfl
    simp only [point, List.takeWhile_cons_of_neg (by decide : ¬ Char.isDigit '.' = true),
      List.dropWhile_cons_of_neg (by decide : ¬ Char.isDigit '.' = true),
      takeWhile_isDigit_append isDigit, dropWhile_isDigit_append isDigit, noDigits, all,
      List.append_nil]
    simp

/-- **The text of a complete literal is read as its value.** -/
theorem IsComplete.ofText?_text (complete : l.IsComplete) :
    Double.ofText? (String.ofList l.text) = some l.value := by
  obtain ⟨exponent, -⟩ := takeExponent_exponentText complete.exponent
  simp only [Double.ofText?, String.toList_ofList, complete.takePointed?_text, exponent]

end Literal

end PagedHtml.Number
