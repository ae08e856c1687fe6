/-
**Text in small letters.**

The ASCII letters and digits are three ranges of characters (`isAlphanum_iff`). No capital is left
where a character is made small (`isUpper_toLower`), so making the ASCII capitals of a text small a
second time changes nothing (`lower_lower`). It is what comparing texts without regard to letter
case looks through (`equalsIgnoringCase_iff`), and what becomes a letter or digit in small letters
is one (`isAlphanum_of_toLower`). What follows the lead of a text is found behind the lead in any
letter case (`afterIgnoringCase?_eq_some_iff`).
-/

import PagedHtml.Text.Ascii
import PagedHtml.Text.Blank

namespace PagedHtml.Text

/-! ### Letters and digits by their numbers -/

theorem isDigit_iff {c : Char} : c.isDigit = true ↔ 48 ≤ c.toNat ∧ c.toNat ≤ 57 := by
  simp only [Char.isDigit, Bool.and_eq_true, decide_eq_true_eq, ge_iff_le, UInt32.le_iff_toNat_le]
  exact Iff.rfl

theorem isUpper_iff {c : Char} : c.isUpper = true ↔ 65 ≤ c.toNat ∧ c.toNat ≤ 90 := by
  show decide ('A'.val ≤ c.val ∧ c.val ≤ 'Z'.val) = true ↔ _
  rw [decide_eq_true_iff, UInt32.le_iff_toNat_le, UInt32.le_iff_toNat_le]
  exact Iff.rfl

theorem isLower_iff {c : Char} : c.isLower = true ↔ 97 ≤ c.toNat ∧ c.toNat ≤ 122 := by
  show (decide ('a'.val ≤ c.val) && decide (c.val ≤ 'z'.val)) = true ↔ _
  rw [Bool.and_eq_true, decide_eq_true_iff, decide_eq_true_iff, UInt32.le_iff_toNat_le,
    UInt32.le_iff_toNat_le]
  exact Iff.rfl

theorem isAlpha_iff {c : Char} :
    c.isAlpha = true ↔ (65 ≤ c.toNat ∧ c.toNat ≤ 90) ∨ (97 ≤ c.toNat ∧ c.toNat ≤ 122) := by
  show (c.isUpper || c.isLower) = true ↔ _
  rw [Bool.or_eq_true, isUpper_iff, isLower_iff]

/-- The ASCII letters and digits by their numbers. -/
theorem isAlphanum_iff {c : Char} : c.isAlphanum = true ↔
    65 ≤ c.toNat ∧ c.toNat ≤ 90 ∨ 97 ≤ c.toNat ∧ c.toNat ≤ 122 ∨ 48 ≤ c.toNat ∧ c.toNat ≤ 57 := by
  rw [Char.isAlphanum, Bool.or_eq_true, isAlpha_iff, isDigit_iff]
  exact or_assoc

/-! ### Letter case -/

/-- A character that is no capital is small already. -/
theorem toLower_of_not_isUpper {c : Char} (other : c.isUpper = false) : c.toLower = c :=
  dif_neg (of_decide_eq_false other)

theorem toNat_toLower {c : Char} (capital : c.isUpper = true) : c.toLower.toNat = c.toNat + 32 := by
  have small : c.toNat ≤ 90 := (isUpper_iff.mp capital).2
  have shifted : c.toLower.val = c.val + 32 :=
    congrArg Char.val (dif_pos (of_decide_eq_true capital))
  have number : c.toLower.toNat = (c.toNat + 32) % 4294967296 :=
    (congrArg UInt32.toNat shifted).trans (UInt32.toNat_add _ _)
  omega

/-- What is made small is no capital. -/
theorem isUpper_toLower (c : Char) : c.toLower.isUpper = false := by
  cases capital : c.isUpper with
  | false => rw [toLower_of_not_isUpper capital, capital]
  | true =>
    rw [← Bool.not_eq_true, isUpper_iff, toNat_toLower capital]
    have range := isUpper_iff.mp capital
    omega

/-- What is made a capital is no small letter. -/
theorem isLower_toUpper (c : Char) : c.toUpper.isLower = false := by
  by_cases small : 'a'.val ≤ c.val ∧ c.val ≤ 'z'.val
  · have range : 97 ≤ c.toNat ∧ c.toNat ≤ 122 :=
      ⟨UInt32.le_iff_toNat_le.mp small.1, UInt32.le_iff_toNat_le.mp small.2⟩
    have shifted : c.toUpper.val = c.val + ('A'.val - 'a'.val) := by
      delta Char.toUpper
      rw [dif_pos small]
    have distance : ('A'.val - 'a'.val).toNat = 4294967264 := by decide
    have number : c.toUpper.toNat = (c.toNat + ('A'.val - 'a'.val).toNat) % 4294967296 :=
      (congrArg UInt32.toNat shifted).trans (UInt32.toNat_add _ _)
    rw [← Bool.not_eq_true, isLower_iff]
    omega
  · have same : c.toUpper = c := dif_neg small
    rw [same, ← Bool.not_eq_true, isLower_iff]
    exact fun range => small
      ⟨UInt32.le_iff_toNat_le.mpr range.1, UInt32.le_iff_toNat_le.mpr range.2⟩

theorem toLower_toLower (c : Char) : c.toLower.toLower = c.toLower :=
  toLower_of_not_isUpper (isUpper_toLower c)

theorem lower_lower (text : String) : lower (lower text) = lower text := by
  rw [lower, lower, String.toList_ofList, List.map_map]
  congr 2
  funext c
  exact toLower_toLower c

/-- Texts are the same up to letter case just if they are the same in small letters. -/
theorem equalsIgnoringCase_iff {first second : String} :
    equalsIgnoringCase first second = true ↔ lower first = lower second := by
  rw [equalsIgnoringCase, beq_iff_eq, lower, lower, String.ofList_inj]

theorem isAlphanum_of_toLower {c : Char} (letter : c.toLower.isAlphanum = true) :
    c.isAlphanum = true := by
  cases capital : c.isUpper with
  | true => exact isAlphanum_iff.mpr (.inl (isUpper_iff.mp capital))
  | false => rwa [toLower_of_not_isUpper capital] at letter

/-- No ASCII letter or digit is blank. -/
theorem isBlank_of_isAlphanum {c : Char} (letter : c.isAlphanum = true) : isBlank c = false := by
  rw [isAlphanum_iff] at letter
  simp only [isBlank, Bool.or_eq_false_iff, Bool.and_eq_false_iff, beq_eq_false_iff_ne,
    decide_eq_false_iff_not]
  omega

/-- What follows the lead of a text, in capitals or small letters. -/
theorem afterIgnoringCase?_eq_some_iff {lead chars rest : List Char} :
    afterIgnoringCase? lead chars = some rest ↔
      ∃ opening, chars = opening ++ rest ∧ opening.map Char.toLower = lead.map Char.toLower := by
  fun_induction afterIgnoringCase? lead chars with
  | case1 chars =>
    constructor
    · intro same
      exact ⟨[], Option.some.inj same, rfl⟩
    · rintro ⟨opening, rfl, letters⟩
      obtain rfl := List.map_eq_nil_iff.mp letters
      rfl
  | case2 l lead =>
    refine iff_of_false nofun ?_
    rintro ⟨opening, nothing, letters⟩
    obtain ⟨rfl, -⟩ := List.append_eq_nil_iff.mp nothing.symm
    cases letters
  | case3 l lead c chars same ih =>
    rw [ih]
    have letter : l.toLower = c.toLower := eq_of_beq same
    constructor
    · rintro ⟨opening, rfl, letters⟩
      exact ⟨c :: opening, rfl, by rw [List.map_cons, List.map_cons, letters, letter]⟩
    · rintro ⟨opening, whole, letters⟩
      cases opening with
      | nil => cases letters
      | cons d opening =>
        obtain ⟨rfl, rfl⟩ := List.cons.inj whole
        exact ⟨opening, rfl, (List.cons.inj letters).2⟩
  | case4 l lead c chars other =>
    refine iff_of_false nofun ?_
    rintro ⟨opening, whole, letters⟩
    cases opening with
    | nil => cases letters
    | cons d opening =>
      obtain ⟨rfl, -⟩ := List.cons.inj whole
      exact other (beq_iff_eq.mpr (List.cons.inj letters).1.symm)

end PagedHtml.Text
