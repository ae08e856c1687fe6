/-
**Hexadecimal notation.**

Characters write a number (`WritesHex`) if they are its hexadecimal digits, in either letter case
and behind any number of zeros. The reader takes nothing else: what it reads some digits as is the
number that they write.

* `writesHex_concat`: the last digit is the remainder by sixteen, and those before it write the
  quotient;
* `writesHex_iff`: the digits write the number that `hexNumber?` reads;
* `exists_writesHex_iff`: every run of digits writes some number.
-/

import Mathlib.Data.List.Induction
import PagedHtml.Proofs.Text.LetterCase
import PagedHtml.Text.Hex

namespace PagedHtml.Text

variable {digits front : List Char} {d : Char} {n v : Nat}

/-- The characters are the hexadecimal notation of a number, in either letter case of each digit and
with any number of zeros in front. -/
def WritesHex (digits : List Char) (n : Nat) : Prop :=
  ∃ zeros, digits.map Char.toLower = List.replicate zeros '0' ++ Nat.toDigits 16 n

theorem WritesHex.ne_nil (written : WritesHex digits n) : digits ≠ [] := by
  rintro rfl
  obtain ⟨zeros, nothing⟩ := written
  exact Nat.toDigits_ne_nil (List.append_eq_nil_iff.mp nothing.symm).2

/-! ### One digit -/

theorem toNat_lt_of_hexValue? (value : hexValue? d = some v) : d.toNat < 128 := by
  unfold hexValue? at value
  split at value
  · next digit =>
    have range := isDigit_iff.mp digit
    omega
  · split at value
    · next letter =>
      have bound : d.toNat ≤ 'f'.toNat := letter.2
      exact Nat.lt_of_le_of_lt bound (by decide)
    · split at value
      · next letter =>
        have bound : d.toNat ≤ 'F'.toNat := letter.2
        exact Nat.lt_of_le_of_lt bound (by decide)
      · cases value

theorem toNat_lt_of_toLower (ascii : d.toLower.toNat < 128) : d.toNat < 128 := by
  cases capital : d.isUpper with
  | true => exact Nat.lt_of_le_of_lt (isUpper_iff.mp capital).2 (by decide)
  | false => rwa [toLower_of_not_isUpper capital] at ascii

/-- A character is a digit of its value, in either letter case. -/
theorem hexValue?_eq_some_iff : hexValue? d = some v ↔ v < 16 ∧ d.toLower = Nat.digitChar v := by
  -- Both sides hold of ASCII characters alone, which are few enough to be looked at one by one.
  have values : ∀ k < 128, ∀ v ∈ hexValue? (Char.ofNat k),
      v < 16 ∧ (Char.ofNat k).toLower = Nat.digitChar v := by decide
  have letters : ∀ v < 16, ∀ k < 128, (Char.ofNat k).toLower = Nat.digitChar v →
      hexValue? (Char.ofNat k) = some v := by decide
  have digits : ∀ v < 16, (Nat.digitChar v).toNat < 128 := by decide
  constructor
  · intro value
    have valueHere := values d.toNat (toNat_lt_of_hexValue? value) v
    rw [Char.ofNat_toNat] at valueHere
    exact valueHere value
  · rintro ⟨small, same⟩
    have letterHere := letters v small d.toNat (toNat_lt_of_toLower (same ▸ digits v small))
    rw [Char.ofNat_toNat] at letterHere
    exact letterHere same

/-! ### All digits -/

theorem hexNumber?_nil : hexNumber? [] = some 0 :=
  rfl

theorem hexNumber?_concat :
    hexNumber? (front ++ [d]) =
      (hexNumber? front).bind fun value => (hexValue? d).map (16 * value + ·) := by
  rw [hexNumber?, List.foldlM_append]
  simp only [List.foldlM_cons, List.foldlM_nil, bind_pure]
  rfl

theorem isSome_hexNumber?_iff :
    (hexNumber? digits).isSome = true ↔ ∀ d ∈ digits, isHexDigit d = true := by
  induction digits using List.reverseRecOn with
  | nil => simp [hexNumber?_nil]
  | append_singleton front d ih =>
    rw [List.forall_mem_append, ← ih, List.forall_mem_singleton, isHexDigit, hexNumber?_concat]
    cases hexNumber? front <;> simp

/-- The last digit is the remainder by sixteen, and those before it write the quotient. -/
theorem writesHex_concat :
    WritesHex (front ++ [d]) n ↔
      hexValue? d = some (n % 16) ∧ (front = [] ∧ n < 16 ∨ WritesHex front (n / 16)) := by
  rw [hexValue?_eq_some_iff, and_iff_right (Nat.mod_lt n (by decide))]
  constructor
  · rintro ⟨zeros, letters⟩
    rw [List.map_append, List.map_singleton] at letters
    by_cases small : n < 16
    · rw [Nat.toDigits_of_lt_base small] at letters
      obtain ⟨before, last⟩ := List.append_inj' letters rfl
      rw [Nat.mod_eq_of_lt small, Nat.div_eq_of_lt small]
      refine ⟨(List.cons.inj last).1, ?_⟩
      cases zeros with
      | zero => exact .inl ⟨List.map_eq_nil_iff.mp before, small⟩
      | succ zeros => exact .inr ⟨zeros, by rw [before, List.replicate_succ']; rfl⟩
    · rw [Nat.toDigits_of_base_le (by decide) (Nat.le_of_not_lt small),
        ← List.append_assoc] at letters
      obtain ⟨before, last⟩ := List.append_inj' letters rfl
      exact ⟨(List.cons.inj last).1, .inr ⟨zeros, before⟩⟩
  · rintro ⟨last, ⟨rfl, small⟩ | ⟨zeros, before⟩⟩
    · refine ⟨0, ?_⟩
      rw [Nat.mod_eq_of_lt small] at last
      rw [Nat.toDigits_of_lt_base small, List.nil_append, List.map_singleton, last]
      rfl
    · by_cases small : n < 16
      · refine ⟨zeros + 1, ?_⟩
        rw [Nat.div_eq_of_lt small] at before
        rw [Nat.mod_eq_of_lt small] at last
        rw [Nat.toDigits_of_lt_base small, List.map_append, List.map_singleton, before, last,
          List.replicate_succ']
        rfl
      · refine ⟨zeros, ?_⟩
        rw [Nat.toDigits_of_base_le (by decide) (Nat.le_of_not_lt small), List.map_append,
          List.map_singleton, before, last, List.append_assoc]

/-- **Digits write the number that they are read as.** -/
theorem writesHex_iff : WritesHex digits n ↔ digits ≠ [] ∧ hexNumber? digits = some n := by
  induction digits using List.reverseRecOn generalizing n with
  | nil => exact iff_of_false (fun written => written.ne_nil rfl) (fun other => other.1 rfl)
  | append_singleton front d ih =>
    have leading : front = [] ∧ n < 16 ∨ front ≠ [] ∧ hexNumber? front = some (n / 16) ↔
        hexNumber? front = some (n / 16) := by
      cases front with
      | nil =>
        rw [hexNumber?_nil, Option.some.injEq, @eq_comm _ 0, Nat.div_eq_zero_iff]
        simp
      | cons c front => simp
    rw [writesHex_concat, ih, leading, hexNumber?_concat, Option.bind_eq_some_iff,
      and_iff_right (by simp : front ++ [d] ≠ [])]
    constructor
    · rintro ⟨last, before⟩
      refine ⟨n / 16, before, ?_⟩
      rw [last, Option.map_some, Nat.div_add_mod]
    · rintro ⟨m, before, value⟩
      obtain ⟨v, last, rfl⟩ := Option.map_eq_some_iff.mp value
      have small := (hexValue?_eq_some_iff.mp last).1
      rw [Nat.mul_add_mod, Nat.mod_eq_of_lt small, Nat.mul_add_div (by decide),
        Nat.div_eq_of_lt small, Nat.add_zero]
      exact ⟨last, before⟩

/-- Every run of digits writes a number. -/
theorem exists_writesHex_iff :
    (∃ n, WritesHex digits n) ↔ digits ≠ [] ∧ ∀ d ∈ digits, isHexDigit d = true := by
  rw [← isSome_hexNumber?_iff, Option.isSome_iff_exists, ← exists_and_left]
  exact exists_congr fun n => writesHex_iff

end PagedHtml.Text
