/-
**What is written in base64 is read back.**

A symbol has the value that it was written for, and the values of a group hold the bits of its bytes
(`firstByte_split` and its companions). Reading goes along the groups of four symbols as writing
goes along the groups of three bytes; only the last group may be filled up.

* `decodeFrom_encode`: the groups from any offset on;
* `decode_encode`: all bytes;
* `eq_symbol_of_mem_encode`, `forall_mem_encodeText`: what is written consists of symbols and
  padding.
-/

import PagedHtml.Encoding.Base64
import PagedHtml.Proofs.Encoding.Utf8

namespace PagedHtml.Encoding.Base64

/-! ### Symbols -/

section

variable {v : Nat}

/-- A symbol has the value that it was written for. -/
theorem value?_symbol (small : v < 64) : value? (symbol v) = some v := by
  have every : ∀ v < 64, value? (symbol v) = some v := by decide
  exact every v small

theorem symbol_ne_padding (small : v < 64) : symbol v ≠ padding := by
  intro same
  have value := value?_symbol small
  rw [same] at value
  cases value

theorem valueAt_symbol (offset : Nat) (small : v < 64) :
    valueAt offset (symbol v) = .ok v := by
  rw [valueAt, value?_symbol small]

end

/-! ### The bits of a group -/

theorem firstByte_split (a : UInt8) {low : Nat} (small : low < 16) :
    firstByte (a.toNat / 4) (a.toNat % 4 * 16 + low) = a := by
  have whole : a.toNat / 4 * 4 + (a.toNat % 4 * 16 + low) / 16 = a.toNat := by omega
  rw [firstByte, whole, UInt8.ofNat_toNat]

theorem secondByte_split (b : UInt8) (high : Nat) {low : Nat} (small : low < 4) :
    secondByte (high * 16 + b.toNat / 16) (b.toNat % 16 * 4 + low) = b := by
  have bound := b.toNat_lt
  have whole : (high * 16 + b.toNat / 16) % 16 * 16 + (b.toNat % 16 * 4 + low) / 4 = b.toNat := by
    omega
  rw [secondByte, whole, UInt8.ofNat_toNat]

theorem thirdByte_split (c : UInt8) (high : Nat) :
    thirdByte (high * 4 + c.toNat / 64) (c.toNat % 64) = c := by
  have bound := c.toNat_lt
  have whole : (high * 4 + c.toNat / 64) % 4 * 64 + c.toNat % 64 = c.toNat := by omega
  rw [thirdByte, whole, UInt8.ofNat_toNat]

/-! ### Groups -/

section

variable {offset index v : Nat} {rest : List UInt8}

theorem lastValues_symbol (small : v < 64) {values : List Nat} {filled : Nat}
    (others : lastValues offset (index + 1) rest = .ok (values, filled)) :
    lastValues offset index (symbol v :: rest) = .ok (v :: values, filled) := by
  rw [lastValues, if_neg (symbol_ne_padding small), valueAt_symbol _ small, others]
  rfl

theorem lastValues_padding (behind : 2 ≤ index) (count : Nat) :
    lastValues offset index (List.replicate (count + 1) padding) = .ok ([], count + 1) := by
  have filled : (List.replicate count padding).all (· = padding) = true := by simp
  rw [List.replicate_succ, lastValues, if_pos rfl, if_pos ⟨behind, filled⟩, List.length_replicate]

/-- A group with another one behind it is read as three bytes. -/
theorem decodeFrom_group {a b c d : Nat} (smallA : a < 64) (smallB : b < 64) (smallC : c < 64)
    (smallD : d < 64) (more : rest ≠ []) {bytes : List UInt8}
    (others : decodeFrom (offset + 4) rest = .ok bytes) :
    decodeFrom offset (symbol a :: symbol b :: symbol c :: symbol d :: rest) =
      .ok (firstByte a b :: secondByte b c :: thirdByte c d :: bytes) := by
  cases rest with
  | nil => exact absurd rfl more
  | cons e rest =>
    rw [decodeFrom, valueAt_symbol _ smallA, valueAt_symbol _ smallB, valueAt_symbol _ smallC,
      valueAt_symbol _ smallD, others]
    rfl

theorem decodeFrom_last_one {a b : Nat} (smallA : a < 64) (smallB : b < 64) (unused : b % 16 = 0) :
    decodeFrom offset [symbol a, symbol b, padding, padding] = .ok [firstByte a b] := by
  have values : lastValues offset 0 [symbol a, symbol b, padding, padding] = .ok ([a, b], 2) :=
    lastValues_symbol smallA (lastValues_symbol smallB (lastValues_padding (Nat.le_refl 2) 1))
  rw [decodeFrom, decodeLast, values]
  · simp [bind, Except.bind, unused]
    rfl
  · simp

theorem decodeFrom_last_two {a b c : Nat} (smallA : a < 64) (smallB : b < 64) (smallC : c < 64)
    (unused : c % 4 = 0) :
    decodeFrom offset [symbol a, symbol b, symbol c, padding] =
      .ok [firstByte a b, secondByte b c] := by
  have values : lastValues offset 0 [symbol a, symbol b, symbol c, padding] = .ok ([a, b, c], 1) :=
    lastValues_symbol smallA (lastValues_symbol smallB (lastValues_symbol smallC
      (lastValues_padding (Nat.le_succ 2) 0)))
  rw [decodeFrom, decodeLast, values]
  · simp [bind, Except.bind, unused]
    rfl
  · simp

theorem decodeFrom_last_three {a b c d : Nat} (smallA : a < 64) (smallB : b < 64) (smallC : c < 64)
    (smallD : d < 64) :
    decodeFrom offset [symbol a, symbol b, symbol c, symbol d] =
      .ok [firstByte a b, secondByte b c, thirdByte c d] := by
  have values : lastValues offset 0 [symbol a, symbol b, symbol c, symbol d] =
      .ok ([a, b, c, d], 0) :=
    lastValues_symbol smallA (lastValues_symbol smallB (lastValues_symbol smallC
      (lastValues_symbol smallD rfl)))
  rw [decodeFrom, decodeLast, values]
  · simp [bind, Except.bind]
    rfl
  · simp

end

/-! ### All bytes -/

theorem encode_ne_nil {bytes : List UInt8} (some : bytes ≠ []) : encode bytes ≠ [] := by
  fun_cases encode bytes with
  | case1 => exact absurd rfl some
  | case2 | case3 | case4 => exact List.cons_ne_nil _ _

/-- **The groups of some bytes are read back**, at any offset. -/
theorem decodeFrom_encode (offset : Nat) (bytes : List UInt8) :
    decodeFrom offset (encode bytes) = .ok bytes := by
  fun_induction encode bytes generalizing offset with
  | case1 => rfl
  | case2 a =>
    have bound := a.toNat_lt
    rw [decodeFrom_last_one (by omega) (by omega) (by omega)]
    exact congrArg _ (congrArg (· :: []) (@firstByte_split a 0 (by omega)))
  | case3 a b =>
    have boundA := a.toNat_lt
    have boundB := b.toNat_lt
    rw [decodeFrom_last_two (by omega) (by omega) (by omega) (by omega),
      firstByte_split a (by omega)]
    exact congrArg _ (congrArg (a :: · :: []) (@secondByte_split b _ 0 (by omega)))
  | case4 a b c rest ih =>
    have boundA := a.toNat_lt
    have boundB := b.toNat_lt
    have boundC := c.toNat_lt
    have group : firstByte (a.toNat / 4) (a.toNat % 4 * 16 + b.toNat / 16) = a ∧
        secondByte (a.toNat % 4 * 16 + b.toNat / 16) (b.toNat % 16 * 4 + c.toNat / 64) = b ∧
        thirdByte (b.toNat % 16 * 4 + c.toNat / 64) (c.toNat % 64) = c :=
      ⟨firstByte_split a (by omega), secondByte_split b _ (by omega), thirdByte_split c _⟩
    by_cases last : rest = []
    · subst last
      rw [encode, decodeFrom_last_three (by omega) (by omega) (by omega) (by omega), group.1,
        group.2.1, group.2.2]
    · rw [decodeFrom_group (by omega) (by omega) (by omega) (by omega) (encode_ne_nil last)
        (ih (offset + 4)), group.1, group.2.1, group.2.2]

theorem length_encode_mod (bytes : List UInt8) : (encode bytes).length % 4 = 0 := by
  fun_induction encode bytes with
  | case1 => rfl
  | case2 | case3 => simp
  | case4 a b c rest ih =>
    simp only [List.length_cons]
    omega

/-- **What is written in base64 is read back.** -/
theorem decode_encode (bytes : List UInt8) : decode (encode bytes) = .ok bytes := by
  rw [decode]
  split
  · next nothing =>
    by_cases some : bytes = []
    · rw [some]
    · exact absurd (List.getLast?_eq_none_iff.mp nothing) (encode_ne_nil some)
  · rw [if_neg (by simp [length_encode_mod]), decodeFrom_encode]

/-- **What is written in base64 consists of symbols and padding.** -/
theorem eq_symbol_of_mem_encode (bytes : List UInt8) :
    ∀ byte ∈ encode bytes, byte = padding ∨ ∃ v < 64, byte = symbol v := by
  have small {v : Nat} (bound : v < 64) : symbol v = padding ∨ ∃ w < 64, symbol v = symbol w :=
    .inr ⟨v, bound, rfl⟩
  fun_induction encode bytes with
  | case1 => exact nofun
  | case2 a =>
    have bound := a.toNat_lt
    simp only [List.forall_mem_cons]
    exact ⟨small (by omega), small (by omega), .inl trivial, .inl trivial, nofun⟩
  | case3 a b =>
    have boundA := a.toNat_lt
    have boundB := b.toNat_lt
    simp only [List.forall_mem_cons]
    exact ⟨small (by omega), small (by omega), small (by omega), .inl trivial, nofun⟩
  | case4 a b c rest ih =>
    have boundA := a.toNat_lt
    have boundB := b.toNat_lt
    have boundC := c.toNat_lt
    simp only [List.forall_mem_cons]
    exact ⟨small (by omega), small (by omega), small (by omega), small (by omega), ih⟩

/-- What holds of padding and of every symbol holds of the text that is written in base64. -/
theorem forall_mem_encodeText {p : Char → Prop} (filled : p (Char.ofNat padding.toNat))
    (symbols : ∀ v < 64, p (Char.ofNat (symbol v).toNat)) (bytes : List UInt8) :
    ∀ c ∈ (encodeText bytes).toList, p c := by
  rw [encodeText, String.toList_ofList]
  intro c member
  obtain ⟨byte, written, rfl⟩ := List.mem_map.mp member
  rcases eq_symbol_of_mem_encode bytes byte written with rfl | ⟨v, small, rfl⟩
  · exact filled
  · exact symbols v small

/-- The text that is written in base64 has the written bytes. -/
theorem utf8_encodeText (bytes : List UInt8) : utf8 (encodeText bytes) = encode bytes := by
  have ascii : ∀ c ∈ (encodeText bytes).toList, Text.isAscii c = true :=
    forall_mem_encodeText (by decide) (by decide) bytes
  have symbols : ∀ v < 64, (Char.ofNat (symbol v).toNat).toUInt8 = symbol v := by decide
  rw [encodeText, String.toList_ofList] at ascii
  rw [encodeText, utf8_ofList_of_isAscii ascii, List.map_map]
  refine (List.map_congr_left fun byte member => ?_).trans (List.map_id _)
  rcases eq_symbol_of_mem_encode bytes byte member with rfl | ⟨v, small, rfl⟩
  · rfl
  · exact symbols v small

end PagedHtml.Encoding.Base64
