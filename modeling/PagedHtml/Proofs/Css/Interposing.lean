/-
**A comment between two tokens changes neither.**

Where a token ends depends on what stands behind it, up to three characters of it. None of them is a
slash that the token goes on with: a token that ends before some text ends there before a slash too.
So a comment may stand wherever a token ends, and the tokens before and behind it are the same.

Each scanner is followed on two texts with the same front, one of which has a slash behind it: if it
does not go beyond the front in the other text, it takes the same of both (`SameFront`).

* `Lexer.sameStep_tokenAt`: a token without an escape, an address or a broken string is taken of
  both texts alike;
* `Divides.tokenizeChars_front`: so are all the tokens of a front;
* `tokenize_comment`: the tokens of a text with a comment behind one of its tokens.
-/

import Mathlib.Data.List.TakeWhile
import PagedHtml.Proofs.Css.Lexeme
import PagedHtml.Proofs.Css.Stretches

namespace PagedHtml

/-- **Two readings that leave what stands behind a common front**: they take the same, and leave the
same of the front. -/
def SameFront {α : Type} (back other : List Char) (first second : α × List Char) : Prop :=
  ∃ value left, first = (value, left ++ back) ∧ second = (value, left ++ other)

variable {front back : List Char}

theorem SameFront.refl {α : Type} {other : List Char} (value : α) (left : List Char) :
    SameFront back other (value, left ++ back) (value, left ++ other) :=
  ⟨value, left, rfl, rfl⟩

/-- What leaves everything takes nothing. -/
theorem eq_nil_of_length_le {taken rest chars : List Char} (whole : taken ++ rest = chars)
    (within : chars.length ≤ rest.length) : taken = [] ∧ rest = chars := by
  have lengths := congrArg List.length whole
  rw [List.length_append] at lengths
  obtain rfl : taken = [] := List.eq_nil_of_length_eq_zero (by omega)
  exact ⟨rfl, whole⟩

/-- What stands at the start of a text and leaves what is behind the front stands in the front. -/
theorem prefix_front {lead : List Char} (starts : lead <+: front ++ back)
    (within : back.length ≤ ((front ++ back).drop lead.length).length) : lead <+: front := by
  refine List.prefix_of_prefix_length_le starts (List.prefix_append front back) ?_
  have bound := starts.length_le
  rw [List.length_drop] at within
  rw [List.length_append] at within bound
  omega

theorem take_eq_of_slash {lead behind : List Char} (noSlash : '/' ∉ lead) (back : List Char)
    (starts : (front ++ '/' :: behind).take lead.length = lead) :
    (front ++ back).take lead.length = lead := by
  have inside := prefix_of_append_stop noSlash (List.prefix_iff_eq_take.mpr starts.symm)
  exact (List.prefix_iff_eq_take.mp (inside.trans (List.prefix_append front back))).symm

theorem exists_eq_cons_front {c : Char} (first : (front ++ back).head? = some c)
    (within : back.length ≤ (front ++ back).tail.length) : ∃ left, front = c :: left := by
  obtain ⟨rest, split⟩ := List.head?_eq_some_iff.mp first
  have starts : [c] <+: front ++ back := ⟨rest, split.symm⟩
  obtain ⟨left, same⟩ := prefix_front starts (by simpa using within)
  exact ⟨left, same.symm⟩

theorem exists_eq_cons_of_slash {c : Char} {behind : List Char} (noSlash : c ≠ '/')
    (first : (front ++ '/' :: behind).head? = some c) : ∃ left, front = c :: left := by
  obtain ⟨rest, split⟩ := List.head?_eq_some_iff.mp first
  have starts : [c] <+: front ++ '/' :: behind := ⟨rest, split.symm⟩
  obtain ⟨left, same⟩ := prefix_of_append_stop (by simpa using noSlash.symm) starts
  exact ⟨left, same.symm⟩

/-- A run of characters that is not made of slashes, and what follows it. -/
theorem sameFront_takeWhile {p : Char → Bool} (stops : p '/' = false)
    (within : back.length ≤ ((front ++ back).dropWhile p).length) (behind : List Char) :
    SameFront back ('/' :: behind)
      ((front ++ back).takeWhile p, (front ++ back).dropWhile p)
      ((front ++ '/' :: behind).takeWhile p, (front ++ '/' :: behind).dropWhile p) := by
  induction front with
  | nil =>
    obtain ⟨none, all⟩ := eq_nil_of_length_le List.takeWhile_append_dropWhile within
    simp only [List.nil_append] at none all ⊢
    rw [none, all, List.takeWhile_cons_of_neg (ne_true_of_eq_false stops),
      List.dropWhile_cons_of_neg (ne_true_of_eq_false stops)]
    exact .refl _ []
  | cons c front ih =>
    simp only [List.cons_append, List.takeWhile_cons, List.dropWhile_cons] at within ⊢
    split at within
    · next holds =>
      obtain ⟨value, left, first, second⟩ := ih within
      obtain ⟨taken, dropped⟩ := Prod.mk.inj first
      obtain ⟨takenOther, droppedOther⟩ := Prod.mk.inj second
      simp only [if_pos holds, taken, dropped, takenOther, droppedOther]
      exact .refl _ left
    · next fails =>
      simp only [if_neg fails]
      exact .refl _ (c :: front)

/-! ### Numbers -/

namespace Number.Literal

theorem sameFront_takeSign (within : back.length ≤ (takeSign (front ++ back)).2.length)
    (behind : List Char) :
    SameFront back ('/' :: behind) (takeSign (front ++ back))
      (takeSign (front ++ '/' :: behind)) := by
  cases front with
  | nil =>
    obtain ⟨none, all⟩ := eq_nil_of_length_le (takeSign_text back) within
    have unsigned : takeSign back = (Option.none, back) :=
      Prod.ext (Option.toList_eq_nil_iff.mp none) all
    exact ⟨Option.none, [], unsigned, rfl⟩
  | cons c front =>
    simp only [List.cons_append, takeSign]
    split
    · exact .refl (some c) front
    · exact .refl none (c :: front)

/-- A digit before a slash stands in the front. -/
theorem startsWithDigit_of_slash {behind : List Char} (back : List Char)
    (digit : startsWithDigit (front ++ '/' :: behind) = true) :
    startsWithDigit (front ++ back) = true := by
  cases front with
  | nil => exact absurd digit (by simp [startsWithDigit, (by decide : Char.isDigit '/' = false)])
  | cons c front => exact digit

/-- Where digits are taken of the front it starts with a digit. -/
theorem startsWithDigit_front
    (within : back.length ≤ ((front ++ back).dropWhile Char.isDigit).length)
    (digit : startsWithDigit (front ++ back) = true) (behind : List Char) :
    startsWithDigit (front ++ '/' :: behind) = true := by
  cases front with
  | nil =>
    obtain ⟨none, -⟩ := eq_nil_of_length_le List.takeWhile_append_dropWhile within
    cases back with
    | nil => cases digit
    | cons c rest =>
      have isDigit : c.isDigit = true := digit
      simp [isDigit] at none
  | cons c front => exact digit

theorem sameFront_takeFraction (within : back.length ≤ (takeFraction (front ++ back)).2.length)
    (behind : List Char) :
    SameFront back ('/' :: behind) (takeFraction (front ++ back))
      (takeFraction (front ++ '/' :: behind)) := by
  cases front with
  | nil =>
    obtain ⟨none, all⟩ := eq_nil_of_length_le (takeFraction_text back) within
    have nothing : (takeFraction back).1 = [] := by
      cases fraction : (takeFraction back).1 with
      | nil => rfl
      | cons d more =>
        rw [fraction] at none
        cases none
    exact ⟨[], [], Prod.ext nothing all, rfl⟩
  | cons c front =>
    simp only [List.cons_append, takeFraction] at within ⊢
    by_cases fraction : c = '.' ∧ startsWithDigit (front ++ back) = true
    · obtain ⟨rfl, digit⟩ := fraction
      simp only [digit, beq_self_eq_true, Bool.and_self, if_true] at within ⊢
      rw [startsWithDigit_front within digit, if_pos (by decide)]
      exact sameFront_takeWhile (by decide) within behind
    · have fractionOther : ¬ (c = '.' ∧ startsWithDigit (front ++ '/' :: behind) = true) :=
        mt (And.imp_right (startsWithDigit_of_slash back)) fraction
      rw [if_neg (by simpa using fraction), if_neg (by simpa using fractionOther)]
      exact .refl [] (c :: front)

/-- A digit behind a sign and before a slash stands in the front. -/
theorem startsWithDigit_takeSign_of_slash {behind : List Char} (back : List Char)
    (digit : startsWithDigit (takeSign (front ++ '/' :: behind)).2 = true) :
    startsWithDigit (takeSign (front ++ back)).2 = true := by
  cases front with
  | nil => exact absurd digit (by simp [takeSign, startsWithDigit])
  | cons c front =>
    simp only [List.cons_append, takeSign] at digit ⊢
    split at digit
    · next sign =>
      rw [if_pos sign]
      exact startsWithDigit_of_slash back digit
    · next unsigned =>
      rw [if_neg unsigned]
      exact digit

theorem sameFront_takeExponent (within : back.length ≤ (takeExponent (front ++ back)).2.length)
    (behind : List Char) :
    SameFront back ('/' :: behind) (takeExponent (front ++ back))
      (takeExponent (front ++ '/' :: behind)) := by
  cases front with
  | nil =>
    obtain ⟨none, all⟩ := eq_nil_of_length_le (takeExponent_text back) within
    have nothing : (takeExponent back).1 = Option.none := by
      cases exponent : (takeExponent back).1 with
      | none => rfl
      | some e =>
        rw [exponent] at none
        cases none
    exact ⟨Option.none, [], Prod.ext nothing all, rfl⟩
  | cons c front =>
    simp only [List.cons_append, takeExponent] at within ⊢
    by_cases exponent : (c == 'e' || c == 'E') = true ∧
        startsWithDigit (takeSign (front ++ back)).2 = true
    · obtain ⟨mark, digit⟩ := exponent
      simp only [mark, digit, Bool.and_self, if_true] at within ⊢
      have withinSign := within.trans (List.dropWhile_suffix Char.isDigit).length_le
      obtain ⟨sign, left, first, second⟩ := sameFront_takeSign withinSign behind
      simp only [first, second] at within digit ⊢
      rw [startsWithDigit_front within digit, if_pos (by decide)]
      obtain ⟨digits, rest, first, second⟩ :=
        sameFront_takeWhile (p := Char.isDigit) (by decide) within behind
      obtain ⟨taken, dropped⟩ := Prod.mk.inj first
      obtain ⟨takenOther, droppedOther⟩ := Prod.mk.inj second
      rw [taken, dropped, takenOther, droppedOther]
      exact .refl _ rest
    · have exponentOther : ¬ ((c == 'e' || c == 'E') = true ∧
          startsWithDigit (takeSign (front ++ '/' :: behind)).2 = true) :=
        mt (And.imp_right (startsWithDigit_takeSign_of_slash back)) exponent
      rw [← Bool.and_eq_true] at exponent exponentOther
      rw [if_neg exponent, if_neg exponentOther]
      exact .refl none (c :: front)

/-- **A number that ends in the front is taken of both texts.** -/
theorem sameFront_take (within : back.length ≤ (take (front ++ back)).2.length)
    (behind : List Char) :
    SameFront back ('/' :: behind) (take (front ++ back)) (take (front ++ '/' :: behind)) := by
  simp only [take] at within ⊢
  -- Each part of the number leaves at least what the parts behind it leave.
  have withinFraction := within.trans (takeExponent_suffix _).length_le
  have withinDigits := withinFraction.trans (takeFraction_suffix _).length_le
  have withinSign := withinDigits.trans (List.dropWhile_suffix Char.isDigit).length_le
  obtain ⟨sign, unsigned, first, second⟩ := sameFront_takeSign withinSign behind
  simp only [first, second] at within withinFraction withinDigits ⊢
  obtain ⟨whole, afterWhole, first, second⟩ :=
    sameFront_takeWhile (p := Char.isDigit) (by decide) withinDigits behind
  obtain ⟨taken, dropped⟩ := Prod.mk.inj first
  obtain ⟨takenOther, droppedOther⟩ := Prod.mk.inj second
  simp only [taken, dropped, takenOther, droppedOther] at within withinFraction ⊢
  obtain ⟨fraction, afterFraction, first, second⟩ := sameFront_takeFraction withinFraction behind
  simp only [first, second] at within ⊢
  obtain ⟨exponent, rest, first, second⟩ := sameFront_takeExponent within behind
  simp only [first, second]
  exact .refl _ rest

end Number.Literal

namespace Css

open Text (isSpace)

/-! ### Names -/

namespace Scan

theorem takeName_slash (behind : List Char) : takeName ('/' :: behind) = ([], '/' :: behind) := by
  rw [takeName_cons (by decide), if_neg (by decide)]

/-- **A name that ends in the front is taken of both texts.** -/
theorem sameFront_takeName (plain : '\\' ∉ front ++ back)
    (within : back.length ≤ (takeName (front ++ back)).2.length) (behind : List Char) :
    SameFront back ('/' :: behind) (takeName (front ++ back))
      (takeName (front ++ '/' :: behind)) := by
  induction front with
  | nil =>
    rw [List.nil_append] at plain within ⊢
    rw [takeName_eq plain] at within ⊢
    obtain ⟨none, all⟩ := eq_nil_of_length_le List.takeWhile_append_dropWhile within
    rw [none, all]
    exact ⟨[], [], rfl, takeName_slash behind⟩
  | cons c front ih =>
    obtain ⟨here, later⟩ := not_or.mp (mt List.mem_cons.mpr plain)
    rw [List.cons_append, takeName_cons (Ne.symm here)] at within ⊢
    rw [List.cons_append, takeName_cons (Ne.symm here)]
    split at within
    · next isName =>
      obtain ⟨name, left, first, second⟩ := ih later within
      rw [if_pos isName, if_pos isName, first, second]
      exact .refl (c :: name) left
    · next other =>
      rw [if_neg other, if_neg other]
      exact .refl [] (c :: front)

/-- A name that starts before a slash starts in the front. -/
theorem startsName_of_slash {behind : List Char} (plain : '\\' ∉ front) (back : List Char)
    (starts : startsName (front ++ '/' :: behind) = true) : startsName (front ++ back) = true := by
  rcases front with _ | ⟨c, front⟩
  · cases starts
  · by_cases hyphen : c = '-'
    · subst hyphen
      rcases front with _ | ⟨d, front⟩
      · cases starts
      · have notEscape : d ≠ '\\' := fun same => plain (by simp [same])
        simpa [startsName, notEscape] using starts
    · have notEscape : c ≠ '\\' := fun same => plain (by simp [same])
      rw [List.cons_append, startsName_cons hyphen notEscape] at starts
      exact startsName_of_isNameStart starts _

/-- Where a name is taken of the front it starts there. -/
theorem startsName_front (plain : '\\' ∉ front ++ back)
    (within : back.length ≤ (takeName (front ++ back)).2.length)
    (starts : startsName (front ++ back) = true) (behind : List Char) :
    startsName (front ++ '/' :: behind) = true := by
  obtain ⟨name, left, taken, -⟩ := sameFront_takeName plain within behind
  have isName := isName_takeWhile starts plain
  rw [takeName_eq plain] at taken
  obtain ⟨names, rest⟩ := Prod.mk.inj taken
  have whole := List.takeWhile_append_dropWhile (p := isNameChar) (l := front ++ back)
  rw [names, rest, ← List.append_assoc] at whole
  rw [names] at isName
  rw [← List.append_cancel_right whole, List.append_assoc]
  exact isName.startsName_append _

theorem startsUnsigned_iff {chars : List Char} :
    startsUnsigned chars = true ↔
      chars.takeWhile Char.isDigit ≠ [] ∨
        (Number.Literal.takeFraction (chars.dropWhile Char.isDigit)).1 ≠ [] := by
  cases chars with
  | nil => simp [startsUnsigned, Number.Literal.takeFraction]
  | cons c rest =>
    by_cases digit : c.isDigit = true
    · simp [startsUnsigned, digit]
    · have fraction : Number.Literal.startsWithDigit rest = true ↔
          rest.takeWhile Char.isDigit ≠ [] := by
        cases rest <;> simp [Number.Literal.startsWithDigit]
      have unsigned : startsUnsigned (c :: rest) =
          (c == '.' && Number.Literal.startsWithDigit rest) := by
        simp [startsUnsigned, digit, Number.Literal.startsWithDigit]
      rw [List.takeWhile_cons_of_neg digit, List.dropWhile_cons_of_neg digit, unsigned,
        Number.Literal.takeFraction]
      by_cases point : (c == '.' && Number.Literal.startsWithDigit rest) = true
      · rw [if_pos point]
        exact iff_of_true point (.inr (fraction.mp ((Bool.and_eq_true _ _).mp point).2))
      · rw [if_neg point]
        exact iff_of_false point (by simp)

/-- **A number starts where digits are taken.** -/
theorem startsNumber_iff {chars : List Char} :
    startsNumber chars = true ↔
      (Number.Literal.take chars).1.whole ≠ [] ∨ (Number.Literal.take chars).1.fraction ≠ [] := by
  cases chars with
  | nil =>
    simp [startsNumber, Number.Literal.take, Number.Literal.takeSign, Number.Literal.takeFraction]
  | cons c rest =>
    simp only [startsNumber, Number.Literal.take, Number.Literal.takeSign]
    split
    · exact startsUnsigned_iff
    · exact startsUnsigned_iff

theorem startsUnsigned_of_slash {behind : List Char} (back : List Char)
    (starts : startsUnsigned (front ++ '/' :: behind) = true) :
    startsUnsigned (front ++ back) = true := by
  cases front with
  | nil => cases starts
  | cons c front =>
    simp only [List.cons_append, startsUnsigned, Bool.or_eq_true, Bool.and_eq_true] at starts ⊢
    exact starts.imp_right (And.imp_right (Number.Literal.startsWithDigit_of_slash back))

/-- A number that starts before a slash starts in the front. -/
theorem startsNumber_of_slash {behind : List Char} (back : List Char)
    (starts : startsNumber (front ++ '/' :: behind) = true) :
    startsNumber (front ++ back) = true := by
  cases front with
  | nil => cases starts
  | cons c front =>
    simp only [List.cons_append, startsNumber] at starts ⊢
    split at starts
    · next sign =>
      rw [if_pos sign]
      exact startsUnsigned_of_slash back starts
    · next unsigned =>
      rw [if_neg unsigned]
      exact @startsUnsigned_of_slash (c :: front) _ back starts

/-- Where a number is taken of the front it starts there. -/
theorem startsNumber_front
    (within : back.length ≤ (Number.Literal.take (front ++ back)).2.length)
    (starts : startsNumber (front ++ back) = true) (behind : List Char) :
    startsNumber (front ++ '/' :: behind) = true := by
  obtain ⟨literal, left, first, second⟩ := Number.Literal.sameFront_take within behind
  rw [startsNumber_iff, first] at starts
  rw [startsNumber_iff, second]
  exact starts

/-- **A string that ends in the front is taken of both texts.** -/
theorem takeString_front {quote : Char} (plain : '\\' ∉ front ++ back)
    (closed : (takeString quote (front ++ back)).ending = .closed)
    (within : back.length ≤ (takeString quote (front ++ back)).rest.length) (behind : List Char) :
    ∃ chars left, takeString quote (front ++ back) = ⟨chars, .closed, left ++ back⟩ ∧
      takeString quote (front ++ '/' :: behind) = ⟨chars, .closed, left ++ '/' :: behind⟩ := by
  induction front with
  | nil =>
    rw [List.nil_append] at closed within
    rcases takeString_taken quote back with breaks | nothing | shorter
    · rw [closed] at breaks
      cases breaks
    · rw [nothing] at within
      obtain rfl := List.length_eq_zero_iff.mp (Nat.le_zero.mp within)
      rw [takeString] at closed
      cases closed
    · exact absurd within shorter.not_ge
  | cons c front ih =>
    obtain ⟨here, later⟩ := not_or.mp (mt List.mem_cons.mpr plain)
    rw [List.cons_append, takeString_cons quote (Ne.symm here)] at closed within ⊢
    rw [List.cons_append, takeString_cons quote (Ne.symm here)]
    by_cases same : c = quote
    · simp only [if_pos same]
      exact ⟨[], front, rfl, rfl⟩
    · simp only [if_neg same] at closed within ⊢
      by_cases breaks : c = '\n'
      · simp only [if_pos breaks] at closed
        cases closed
      · simp only [if_neg breaks] at closed within ⊢
        obtain ⟨chars, left, first, second⟩ := ih later closed within
        rw [first, second]
        exact ⟨c :: chars, left, rfl, rfl⟩

end Scan

/-! ### Tokens -/

namespace Lexer

open Scan

/-- Two steps that take the same of texts with a common front. -/
def SameStep (back other : List Char) (first second : Step) : Prop :=
  ∃ left, first.rest = left ++ back ∧ second = { first with rest := left ++ other }

theorem SameStep.of_eq {other : List Char} {first second : Step} {token : Token}
    {fault : Option LexFault} (left : List Char) (here : first = ⟨token, fault, left ++ back⟩)
    (there : second = ⟨token, fault, left ++ other⟩) : SameStep back other first second := by
  subst here there
  exact ⟨left, rfl, rfl⟩

variable {behind : List Char}

theorem sameStep_stringToken {quote : Char} (plain : '\\' ∉ front ++ back)
    (whole : (stringToken quote (front ++ back)).fault = none)
    (sound : (stringToken quote (front ++ back)).token ≠ .badString)
    (within : back.length ≤ (stringToken quote (front ++ back)).rest.length) (behind : List Char) :
    SameStep back ('/' :: behind) (stringToken quote (front ++ back))
      (stringToken quote (front ++ '/' :: behind)) := by
  have closed : (takeString quote (front ++ back)).ending = .closed := by
    cases ending : (takeString quote (front ++ back)).ending with
    | closed => rfl
    | broken =>
      simp only [stringToken, ending] at sound
      exact absurd rfl sound
    | cutOff =>
      simp only [stringToken, ending] at whole
      cases whole
  have rest : (stringToken quote (front ++ back)).rest =
      (takeString quote (front ++ back)).rest := by
    simp only [stringToken, closed]
  rw [rest] at within
  obtain ⟨chars, left, first, second⟩ := takeString_front plain closed within behind
  rw [stringToken, stringToken, first, second]
  exact .of_eq left rfl rfl

theorem numericToken_rest_suffix (chars : List Char) :
    (numericToken chars).rest <:+ (Number.Literal.take chars).2 := by
  rw [numericToken_eq]
  simp only
  split_ifs
  · exact takeName_suffix _
  · exact List.tail_suffix _
  · exact List.suffix_rfl

theorem sameStep_numericToken (plain : '\\' ∉ front ++ back)
    (within : back.length ≤ (numericToken (front ++ back)).rest.length) (behind : List Char) :
    SameStep back ('/' :: behind) (numericToken (front ++ back))
      (numericToken (front ++ '/' :: behind)) := by
  have withinNumber := within.trans (numericToken_rest_suffix (front ++ back)).length_le
  have suffix := Number.Literal.take_suffix (front ++ back)
  obtain ⟨literal, left, first, second⟩ := Number.Literal.sameFront_take withinNumber behind
  rw [numericToken_eq, numericToken_eq, first, second]
  rw [numericToken_eq, first] at within
  rw [first] at suffix
  have plainLeft : '\\' ∉ left ++ back := mt (suffix.mem ·) plain
  simp only at within ⊢
  split at within
  · next unit =>
    rw [if_pos unit, if_pos (startsName_front plainLeft within unit behind)]
    obtain ⟨name, rest, first, second⟩ := sameFront_takeName plainLeft within behind
    rw [first, second]
    exact .of_eq _ rfl rfl
  · next noUnit =>
    have noUnitOther : ¬ startsName (left ++ '/' :: behind) = true :=
      mt (startsName_of_slash (fun member => plainLeft (List.mem_append_left _ member)) back) noUnit
    rw [if_neg noUnit, if_neg noUnitOther]
    split at within
    · next percent =>
      obtain ⟨left, rfl⟩ := exists_eq_cons_front percent within
      exact .of_eq left rfl rfl
    · next noPercent =>
      rw [if_neg noPercent, if_neg fun percent => noPercent ?_]
      · exact .of_eq _ rfl rfl
      · obtain ⟨left, rfl⟩ := exists_eq_cons_of_slash (by decide) percent
        rfl

theorem namedToken_rest_suffix (chars : List Char) :
    (namedToken chars).rest <:+ (takeName chars).2 := by
  rw [namedToken_eq]
  simp only
  have argument := (List.dropWhile_suffix isSpace).trans (List.tail_suffix (takeName chars).2)
  split_ifs
  · exact argument
  · exact (addressToken_suffix _).trans argument
  · exact List.tail_suffix _
  · exact List.suffix_rfl

/-- No address starts in a text that does not hold its mark. -/
theorem not_opens_address {chars : List Char} (plain : '\\' ∉ chars)
    (noAddress : ¬ "url(".toList <:+: chars.map Char.toLower)
    (opens : (takeName chars).2.head? = some '(') :
    ¬ Text.equalsIgnoringCase (String.ofList (takeName chars).1) "url" = true := by
  intro url
  simp only [takeName_eq plain] at opens url
  have whole := List.takeWhile_append_dropWhile (p := isNameChar) (l := chars)
  obtain ⟨rest, behind⟩ := List.head?_eq_some_iff.mp opens
  rw [behind] at whole
  have letters : (chars.takeWhile isNameChar).map Char.toLower = "url".toList := by
    rw [Text.equalsIgnoringCase, beq_iff_eq, String.toList_ofList] at url
    exact url
  refine noAddress ⟨[], rest.map Char.toLower, ?_⟩
  rw [← whole, List.map_append, letters]
  rfl

theorem sameStep_namedToken (plain : '\\' ∉ front ++ back)
    (noAddress : ¬ "url(".toList <:+: (front ++ back).map Char.toLower)
    (within : back.length ≤ (namedToken (front ++ back)).rest.length) (behind : List Char) :
    SameStep back ('/' :: behind) (namedToken (front ++ back))
      (namedToken (front ++ '/' :: behind)) := by
  have withinName := within.trans (namedToken_rest_suffix (front ++ back)).length_le
  have noUrl := not_opens_address plain noAddress
  rw [namedToken_eq] at within ⊢
  rw [namedToken_eq]
  obtain ⟨name, left, first, second⟩ := sameFront_takeName plain withinName behind
  rw [first] at within noUrl ⊢
  rw [second]
  simp only at within noUrl ⊢
  split at within
  · next opens =>
    have notUrl := noUrl opens
    rw [if_neg notUrl] at within
    obtain ⟨left, rfl⟩ := exists_eq_cons_front opens within
    rw [if_pos opens, if_pos (by rfl : ('(' :: left ++ '/' :: behind).head? = some '('),
      if_neg notUrl, if_neg notUrl]
    exact .of_eq left rfl rfl
  · next closed =>
    rw [if_neg closed, if_neg fun opens => closed ?_]
    · exact .of_eq _ rfl rfl
    · obtain ⟨left, rfl⟩ := exists_eq_cons_of_slash (by decide) opens
      rfl

theorem hashToken_of_head? {rest : List Char} (plain : rest.head? ≠ some '\\') :
    hashToken rest =
      if rest.head?.any isNameChar then
        ⟨.hash (String.ofList (takeName rest).1), none, (takeName rest).2⟩
      else ⟨.delim '#', none, rest⟩ := by
  simp only [hashToken, beq_eq_false_iff_ne.mpr plain, Bool.false_and, Bool.or_false]

theorem sameStep_hashToken (plain : '\\' ∉ front ++ back)
    (within : back.length ≤ (hashToken (front ++ back)).rest.length) (behind : List Char) :
    SameStep back ('/' :: behind) (hashToken (front ++ back))
      (hashToken (front ++ '/' :: behind)) := by
  have noEscape : (front ++ back).head? ≠ some '\\' := fun first =>
    plain (List.mem_of_head? first)
  have noEscapeOther : (front ++ '/' :: behind).head? ≠ some '\\' := by
    cases front with
    | nil => simp
    | cons c front => exact noEscape
  rw [hashToken_of_head? noEscape] at within ⊢
  rw [hashToken_of_head? noEscapeOther]
  split at within
  · next named =>
    obtain ⟨name, left, first, second⟩ := sameFront_takeName plain within behind
    have namedOther : (front ++ '/' :: behind).head?.any isNameChar = true := by
      cases front with
      | nil =>
        rw [List.nil_append] at named within plain
        rw [takeName_eq plain] at within
        obtain ⟨none, -⟩ := eq_nil_of_length_le List.takeWhile_append_dropWhile within
        cases back with
        | nil => cases named
        | cons c rest =>
          have isName : isNameChar c = true := named
          simp [isName] at none
      | cons c front => exact named
    rw [if_pos named, if_pos namedOther, first, second]
    exact .of_eq _ rfl rfl
  · next unnamed =>
    have unnamedOther : ¬ (front ++ '/' :: behind).head?.any isNameChar = true := by
      cases front with
      | nil => simp [(by decide : isNameChar '/' = false)]
      | cons c front => exact unnamed
    rw [if_neg unnamed, if_neg unnamedOther]
    exact .of_eq _ rfl rfl

/-- **A token that ends in the front is taken of both texts**, if there is no escape and no address
in the first one and the token is no broken string. -/
theorem sameStep_tokenAt {c : Char} (plain : '\\' ∉ c :: (front ++ back))
    (noAddress : ¬ "url(".toList <:+: (c :: (front ++ back)).map Char.toLower)
    (whole : (tokenAt c (front ++ back)).fault = none)
    (sound : (tokenAt c (front ++ back)).token ≠ .badString)
    (within : back.length ≤ (tokenAt c (front ++ back)).rest.length) (behind : List Char) :
    SameStep back ('/' :: behind) (tokenAt c (front ++ back))
      (tokenAt c (front ++ '/' :: behind)) := by
  obtain ⟨-, plainRest⟩ := not_or.mp (mt List.mem_cons.mpr plain)
  have plainFront : '\\' ∉ front := fun member => plainRest (List.mem_append_left _ member)
  have plainHere : '\\' ∉ c :: front := fun member =>
    plain (List.cons_append ▸ List.mem_append_left back member)
  cases punctuation : punctuation? c with
  | some token =>
    simp only [tokenAt, punctuation]
    exact .of_eq _ rfl rfl
  | none =>
    simp only [tokenAt, punctuation] at whole sound within ⊢
    by_cases space : isSpace c = true
    · simp only [if_pos space] at within ⊢
      obtain ⟨spaces, left, first, second⟩ :=
        sameFront_takeWhile (p := isSpace) (by decide) within behind
      rw [(Prod.mk.inj first).2, (Prod.mk.inj second).2]
      exact .of_eq _ rfl rfl
    simp only [if_neg space] at whole sound within ⊢
    by_cases quote : c = '"' ∨ c = '\''
    · simp only [if_pos quote] at whole sound within ⊢
      exact sameStep_stringToken plainRest whole sound within behind
    simp only [if_neg quote] at within ⊢
    by_cases hash : c = '#'
    · simp only [if_pos hash] at within ⊢
      exact sameStep_hashToken plainRest within behind
    simp only [if_neg hash] at within ⊢
    by_cases number : startsNumber (c :: (front ++ back)) = true
    · have withinNumber : back.length ≤ (numericToken (c :: front ++ back)).rest.length := by
        rwa [if_pos number] at within
      have numberOther : startsNumber (c :: (front ++ '/' :: behind)) = true :=
        @startsNumber_front (c :: front) back
          (withinNumber.trans (numericToken_rest_suffix _).length_le) number behind
      rw [if_pos number, if_pos numberOther]
      exact @sameStep_numericToken (c :: front) back plain withinNumber behind
    have numberOther : ¬ startsNumber (c :: (front ++ '/' :: behind)) = true :=
      mt (@startsNumber_of_slash (c :: front) behind back) number
    simp only [if_neg number, if_neg numberOther] at within ⊢
    by_cases close : c = '-' ∧ (front ++ back).take 2 = ['-', '>']
    · simp only [if_pos close] at within ⊢
      obtain ⟨left, rfl⟩ := @prefix_front front back ['-', '>']
        (List.prefix_iff_eq_take.mpr close.2.symm) within
      rw [if_pos (by exact ⟨close.1, rfl⟩)]
      exact .of_eq left rfl rfl
    have closeOther : ¬ (c = '-' ∧ (front ++ '/' :: behind).take 2 = ['-', '>']) :=
      mt (And.imp_right (@take_eq_of_slash front ['-', '>'] behind (by decide) back)) close
    simp only [if_neg close, if_neg closeOther] at within ⊢
    by_cases opening : c = '<' ∧ (front ++ back).take 3 = ['!', '-', '-']
    · simp only [if_pos opening] at within ⊢
      obtain ⟨left, rfl⟩ := @prefix_front front back ['!', '-', '-']
        (List.prefix_iff_eq_take.mpr opening.2.symm) within
      rw [if_pos (by exact ⟨opening.1, rfl⟩)]
      exact .of_eq left rfl rfl
    have openingOther : ¬ (c = '<' ∧ (front ++ '/' :: behind).take 3 = ['!', '-', '-']) :=
      mt (And.imp_right (@take_eq_of_slash front ['!', '-', '-'] behind (by decide) back)) opening
    simp only [if_neg opening, if_neg openingOther] at within ⊢
    by_cases keyword : c = '@' ∧ startsName (front ++ back) = true
    · simp only [if_pos keyword] at within ⊢
      have keywordOther := startsName_front plainRest within keyword.2 behind
      rw [if_pos ⟨keyword.1, keywordOther⟩]
      obtain ⟨name, left, first, second⟩ := sameFront_takeName plainRest within behind
      rw [first, second]
      exact .of_eq _ rfl rfl
    have keywordOther : ¬ (c = '@' ∧ startsName (front ++ '/' :: behind) = true) :=
      mt (And.imp_right (startsName_of_slash plainFront back)) keyword
    simp only [if_neg keyword, if_neg keywordOther] at within ⊢
    by_cases word : startsName (c :: (front ++ back)) = true
    · simp only [if_pos word] at within ⊢
      have wordOther : startsName (c :: (front ++ '/' :: behind)) = true :=
        @startsName_front (c :: front) back plain
          (within.trans (namedToken_rest_suffix _).length_le) word behind
      rw [if_pos wordOther]
      exact @sameStep_namedToken (c :: front) back plain noAddress within behind
    have wordOther : ¬ startsName (c :: (front ++ '/' :: behind)) = true :=
      mt (@startsName_of_slash (c :: front) behind plainHere back) word
    rw [if_neg word, if_neg wordOther]
    exact .of_eq _ rfl rfl

end Lexer

/-! ### All tokens of a front -/

/-- Where no comment starts none starts before a slash. -/
theorem noComment_of_slash {c : Char} (noComment : ¬ ['/', '*'] <+: c :: (front ++ back))
    (behind : List Char) : ¬ ['/', '*'] <+: c :: (front ++ '/' :: behind) := by
  intro starts
  obtain ⟨rfl, asterisk⟩ := List.cons_prefix_cons.mp starts
  have inside := prefix_of_append_stop (by decide) asterisk
  exact noComment (List.cons_prefix_cons.mpr ⟨rfl, inside.trans (List.prefix_append front back)⟩)

/-- **The tokens and comments of a front are read before a slash as they are before its text.** -/
theorem Divides.tokenizeChars_front {before after : List Stretch}
    (divides : Divides (before.flatMap Stretch.chars ++ back) (before ++ after))
    (plain : '\\' ∉ before.flatMap Stretch.chars ++ back)
    (noAddress : ¬ "url(".toList <:+: (before.flatMap Stretch.chars ++ back).map Char.toLower)
    (whole : before.filterMap Stretch.fault? = [])
    (sound : .badString ∉ before.filterMap Stretch.token?) (behind : List Char) :
    tokenizeChars (before.flatMap Stretch.chars ++ '/' :: behind) =
      ⟨before.filterMap Stretch.token? ++ (tokenizeChars ('/' :: behind)).tokens,
        (tokenizeChars ('/' :: behind)).faults⟩ := by
  induction before with
  | nil => rfl
  | cons stretch before ih =>
    rw [List.flatMap_cons, List.append_assoc] at divides plain noAddress ⊢
    have plainLater := fun member => plain (List.mem_append_right _ member)
    have noAddressLater := fun inside => noAddress (by
      rw [List.map_append]
      exact List.IsInfix.trans inside (List.suffix_append _ _).isInfix)
    cases stretch with
    | comment body =>
      obtain ⟨first, dividesLater⟩ := divides.of_cons_comment
      rw [Stretch.chars_comment_append, tokenizeChars_comment first]
      exact ih dividesLater plainLater noAddressLater whole sound
    | openComment body => cases whole
    | token chars token fault =>
      obtain ⟨c, more, rfl, noComment, taken, dividesLater⟩ := divides.of_cons_token
      simp only [Stretch.chars, List.cons_append] at plain noAddress ⊢
      obtain ⟨soundHere, soundLater⟩ := not_or.mp (mt List.mem_cons.mpr sound)
      obtain rfl : fault = none := by
        cases fault with
        | none => rfl
        | some fault => cases whole
      have later := ih dividesLater plainLater noAddressLater whole soundLater
      rw [← List.append_assoc] at noComment taken
      have within : back.length ≤
          (Lexer.tokenAt c (more ++ before.flatMap Stretch.chars ++ back)).rest.length := by
        rw [taken, List.length_append]
        exact Nat.le_add_left _ _
      obtain ⟨left, split, same⟩ := Lexer.sameStep_tokenAt (by simpa using plain)
        (by simpa using noAddress) (by rw [taken]) (by rw [taken]; exact Ne.symm soundHere) within
        behind
      rw [taken] at split same
      rw [← List.append_cancel_right split] at same
      have noCommentOther := noComment_of_slash noComment behind
      rw [List.append_assoc] at same noCommentOther
      rw [tokenizeChars_token noCommentOther same, later]
      rfl

/-- **A comment behind a token changes no token of the text**, if there are no escapes, no addresses
and no broken strings in it and nothing is cut off. -/
theorem tokenize_comment {before inside after : String} {first last : List Stretch}
    (divides : Divides (before ++ after).toList (first ++ last))
    (ends : first.flatMap Stretch.chars = before.toList)
    (plain : '\\' ∉ (before ++ after).toList)
    (noAddress : ¬ "url(".toList <:+: (before ++ after).toList.map Char.toLower)
    (whole : (tokenize (before ++ after)).faults = [])
    (sound : .badString ∉ (tokenize (before ++ after)).tokens)
    (noMark : ¬ "*/".toList <:+: inside.toList) :
    tokenize (before ++ "/*" ++ inside ++ "*/" ++ after) = tokenize (before ++ after) := by
  have tokens : tokenize (before ++ after) = _ := divides.tokenizeChars_eq
  simp only [tokens, List.filterMap_append, List.append_eq_nil_iff, List.mem_append] at whole sound
  obtain ⟨soundTokens, -⟩ := not_or.mp sound
  obtain ⟨soundFirst, -⟩ := not_or.mp soundTokens
  simp only [String.toList_append, ← ends] at divides plain noAddress
  obtain ⟨rest, split, dividesLast⟩ := divides.behind
  obtain rfl := List.append_cancel_left split
  have front := divides.tokenizeChars_front plain noAddress whole.1 soundFirst
    ('*' :: (inside.toList ++ '*' :: '/' :: after.toList))
  have comment := tokenizeChars_comment noMark after.toList
  have text : (before ++ "/*" ++ inside ++ "*/" ++ after).toList =
      first.flatMap Stretch.chars ++
        '/' :: '*' :: (inside.toList ++ '*' :: '/' :: after.toList) := by
    simp [ends]
  rw [dividesLast.tokenizeChars_eq] at comment
  rw [tokens, tokenize, text, front, comment, List.filterMap_append, List.filterMap_append, whole.1]
  simp

theorem tokenize_comment_behind_name :
    tokenize ("a" ++ "/*" ++ "x" ++ "*/" ++ ">b") = tokenize ("a" ++ ">b") := by
  have name : Divides ('b' :: ([] ++ [])) [.token ['b'] (.ident "b") none] :=
    .token (by decide) (by decide +kernel) .nil
  have mark : Divides ('>' :: ([] ++ ['b'])) [.token ['>'] (.delim '>') none, _] :=
    .token (by decide) (by decide +kernel) name
  have divides : Divides ('a' :: ([] ++ ['>', 'b'])) ([.token ['a'] (.ident "a") none] ++ [_, _]) :=
    .token (by decide) (by decide +kernel) mark
  have tokens : tokenize ("a" ++ ">b") = _ := divides.tokenizeChars_eq
  refine tokenize_comment divides rfl (by decide) (by decide) ?_ ?_ (by decide)
  · rw [tokens]
    rfl
  · rw [tokens]
    decide

end Css

end PagedHtml
