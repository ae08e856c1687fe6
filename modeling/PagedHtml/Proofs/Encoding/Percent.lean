/-
**What is percent-encoded is read back**, by any decoder that follows the laws.

Bytes can be written in many ways: each one by a percent sign and two hexadecimal digits of either
letter case, and an ASCII character other than the percent sign also by itself (`Writes`). All of
them are read as the bytes.

* `decode_append`: what stands before the first percent sign is read as it is;
* `Writes.decode_eq`: what writes some bytes is read as them.
-/

import PagedHtml.Encoding.Codec
import PagedHtml.Proofs.Encoding.Utf8
import PagedHtml.Proofs.Text.Hexadecimal

namespace PagedHtml.Encoding

open Text (isAscii WritesHex)

namespace Percent

/-- **The ways to write bytes**: a byte by a percent sign and the two digits of its number, or an
ASCII character other than the percent sign by itself. -/
inductive Writes : List Char → List UInt8 → Prop
  | nil : Writes [] []
  | digits {first second : Char} {byte : UInt8} {chars : List Char} {bytes : List UInt8} :
      WritesHex [first, second] byte.toNat → Writes chars bytes →
      Writes ('%' :: first :: second :: chars) (byte :: bytes)
  | plain {c : Char} {chars : List Char} {bytes : List UInt8} :
      isAscii c = true → c ≠ '%' → Writes chars bytes → Writes (c :: chars) (c.toUInt8 :: bytes)

variable {chars : List Char} {bytes : List UInt8}

/-- Two digits have the values of which their number consists. -/
theorem hexValue?_of_writesHex {first second : Char} {n : Nat}
    (written : WritesHex [first, second] n) :
    ∃ high low, Text.hexValue? first = some high ∧ Text.hexValue? second = some low ∧
      16 * high + low = n := by
  obtain ⟨-, number⟩ := Text.writesHex_iff.mp written
  simp only [Text.hexNumber?, List.foldlM_cons, List.foldlM_nil, Option.bind_eq_bind,
    Option.pure_def, Option.bind_eq_some_iff, Option.map_eq_some_iff, Option.some.injEq] at number
  obtain ⟨_, ⟨high, highValue, rfl⟩, _, ⟨low, lowValue, rfl⟩, rfl⟩ := number
  exact ⟨high, low, highValue, lowValue, by omega⟩

theorem isAscii_of_hexValue? {d : Char} {v : Nat} (value : Text.hexValue? d = some v) :
    isAscii d = true :=
  decide_eq_true (Text.toNat_lt_of_hexValue? value)

theorem Writes.isAscii (writes : Writes chars bytes) : ∀ c ∈ chars, isAscii c = true := by
  induction writes with
  | nil => exact nofun
  | digits written _ ih =>
    obtain ⟨high, low, highValue, lowValue, -⟩ := hexValue?_of_writesHex written
    simp only [List.forall_mem_cons]
    exact ⟨rfl, isAscii_of_hexValue? highValue, isAscii_of_hexValue? lowValue, ih⟩
  | plain ascii _ _ ih => exact List.forall_mem_cons.mpr ⟨ascii, ih⟩

theorem digitValue?_toUInt8 {d : Char} {v : Nat} (value : Text.hexValue? d = some v) :
    digitValue? d.toUInt8 = some v := by
  rw [digitValue?, toNat_toUInt8 (isAscii_of_hexValue? value), Char.ofNat_toNat, value]

theorem toUInt8_ne_sign {c : Char} (ascii : Text.isAscii c = true) (other : c ≠ '%') :
    c.toUInt8 ≠ sign :=
  fun same => other (eq_of_toUInt8_eq (d := '%') ascii rfl same)

section

variable [PercentDecoder] (lawful : PercentDecoder.Lawful)

include lawful

/-- **What stands before the first percent sign stands for itself.** -/
theorem decode_append {front : List Char} (without : '%' ∉ front) (chars : List Char) :
    PercentDecoder.decode (utf8 (String.ofList (front ++ chars))) =
      utf8 (String.ofList front) ++ PercentDecoder.decode (utf8 (String.ofList chars)) := by
  have signless : ∀ byte ∈ utf8 (String.ofList front), byte ≠ sign := by
    rw [utf8_ofList]
    rintro byte member rfl
    obtain ⟨c, among, inside⟩ := List.mem_flatMap.mp member
    obtain rfl : c = '%' := eq_of_mem_utf8EncodeChar rfl inside
    exact without among
  have joined : utf8 (String.ofList (front ++ chars)) =
      utf8 (String.ofList front) ++ utf8 (String.ofList chars) := by
    rw [utf8_ofList, utf8_ofList, utf8_ofList, List.flatMap_append]
  rw [joined]
  generalize utf8 (String.ofList front) = bytes at signless
  induction bytes with
  | nil => rfl
  | cons byte bytes ih =>
    obtain ⟨here, later⟩ := List.forall_mem_cons.mp signless
    rw [List.cons_append, lawful.decode_cons here, ih later, List.cons_append]

/-- **What writes some bytes is read as them.** -/
theorem Writes.decode_eq (writes : Writes chars bytes) :
    PercentDecoder.decode (utf8 (String.ofList chars)) = bytes := by
  rw [utf8_ofList_of_isAscii writes.isAscii]
  induction writes with
  | nil => exact lawful.decode_nil
  | @digits first second byte chars bytes written _ ih =>
    obtain ⟨high, low, highValue, lowValue, number⟩ := hexValue?_of_writesHex written
    have read := lawful.decode_digits (digitValue?_toUInt8 highValue)
      (digitValue?_toUInt8 lowValue) (chars.map Char.toUInt8)
    rw [ih, number, UInt8.ofNat_toNat] at read
    exact read
  | plain ascii other _ ih =>
    rw [List.map_cons, lawful.decode_cons (toUInt8_ne_sign ascii other), ih]

end

end Percent

end PagedHtml.Encoding
