/-
**Characters as bytes, in UTF-8.**

* `utf8_ofList_of_isAscii`: the bytes of ASCII characters are their numbers;
* `le_of_mem_utf8EncodeChar`: no other character has the byte of one among its own.
-/

import Mathlib.Tactic.SplitIfs
import PagedHtml.Encoding.Utf8
import PagedHtml.Text.Ascii

namespace PagedHtml.Encoding

open Text (isAscii)

theorem toNat_toUInt8 {c : Char} (ascii : isAscii c = true) : c.toUInt8.toNat = c.toNat := by
  rw [isAscii, decide_eq_true_eq] at ascii
  exact Nat.mod_eq_of_lt (show c.toNat < 256 by omega)

/-- ASCII characters are told apart by their bytes. -/
theorem eq_of_toUInt8_eq {c d : Char} (ascii : isAscii c = true) (other : isAscii d = true)
    (same : c.toUInt8 = d.toUInt8) : c = d := by
  have number := congrArg UInt8.toNat same
  rw [toNat_toUInt8 ascii, toNat_toUInt8 other] at number
  exact Char.toNat_inj.mp number

theorem utf8_ofList (chars : List Char) :
    utf8 (String.ofList chars) = chars.flatMap String.utf8EncodeChar := by
  rw [utf8, String.toUTF8_eq_toByteArray]
  exact List.toList_data_toByteArray

theorem utf8EncodeChar_of_isAscii {c : Char} (ascii : isAscii c = true) :
    String.utf8EncodeChar c = [c.toUInt8] := by
  refine String.utf8EncodeChar_eq_singleton ?_
  rw [isAscii, decide_eq_true_eq] at ascii
  rw [Char.utf8Size_eq_one_iff, UInt32.le_iff_toNat_le]
  exact Nat.le_of_lt_succ ascii

/-- **The bytes of ASCII characters are their numbers.** -/
theorem utf8_ofList_of_isAscii {chars : List Char} (ascii : ∀ c ∈ chars, isAscii c = true) :
    utf8 (String.ofList chars) = chars.map Char.toUInt8 := by
  rw [utf8_ofList]
  induction chars with
  | nil => rfl
  | cons c chars ih =>
    obtain ⟨here, later⟩ := List.forall_mem_cons.mp ascii
    rw [List.flatMap_cons, utf8EncodeChar_of_isAscii here, ih later]
    rfl

/-- **The bytes of any other character** are not those of ASCII characters. -/
theorem le_of_mem_utf8EncodeChar {c : Char} (other : isAscii c = false) :
    ∀ byte ∈ String.utf8EncodeChar c, 128 ≤ byte.toNat := by
  have large : ¬ c.val.toNat ≤ 127 := by
    rw [isAscii, decide_eq_false_iff_not] at other
    exact fun small => other (Nat.lt_succ_of_le small)
  simp only [String.utf8EncodeChar, if_neg large]
  split_ifs <;>
    simp only [List.forall_mem_cons, UInt8.toNat_ofNat', List.not_mem_nil, false_imp_iff,
      implies_true, and_true] <;>
    omega

/-- Characters are told apart from an ASCII one by any of their bytes. -/
theorem eq_of_mem_utf8EncodeChar {c d : Char} (ascii : isAscii d = true)
    (member : d.toUInt8 ∈ String.utf8EncodeChar c) : c = d := by
  cases same : isAscii c with
  | true =>
    rw [utf8EncodeChar_of_isAscii same, List.mem_singleton] at member
    exact eq_of_toUInt8_eq same ascii member.symm
  | false =>
    have high := le_of_mem_utf8EncodeChar same _ member
    rw [toNat_toUInt8 ascii] at high
    rw [isAscii, decide_eq_true_eq] at ascii
    omega

/-- **Text starts with an ASCII character just if its bytes start with the number of it.** -/
theorem utf8_ofList_eq_cons_iff {chars : List Char} {d : Char} {bytes : List UInt8}
    (ascii : isAscii d = true) :
    utf8 (String.ofList chars) = d.toUInt8 :: bytes ↔
      ∃ rest, chars = d :: rest ∧ utf8 (String.ofList rest) = bytes := by
  simp only [utf8_ofList]
  constructor
  · intro same
    cases chars with
    | nil => cases same
    | cons c rest =>
      rw [List.flatMap_cons] at same
      have first : d.toUInt8 ∈ String.utf8EncodeChar c := by
        cases whole : String.utf8EncodeChar c with
        | nil => exact absurd whole String.utf8EncodeChar_ne_nil
        | cons byte others =>
          rw [whole] at same
          exact List.mem_cons.mpr (.inl (List.cons.inj same).1.symm)
      obtain rfl := eq_of_mem_utf8EncodeChar ascii first
      rw [utf8EncodeChar_of_isAscii ascii] at same
      exact ⟨rest, rfl, (List.cons.inj same).2⟩
  · rintro ⟨rest, rfl, rfl⟩
    rw [List.flatMap_cons, utf8EncodeChar_of_isAscii ascii]
    rfl

end PagedHtml.Encoding
