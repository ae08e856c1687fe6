/-
**A quotient near a finite number is rounded to it.**

The codes of the finite numbers stand for the magnitudes `significandOf code * 2 ^ exponentOf code`.
Around each lie the quotients that are nearer to it than to any other (`Double.Near`): up to half a
step away, and below a power of two, where the steps are halved, up to a quarter; the ends belong to
the even codes.

* `floorLog2_eq`: the greatest power of two that is no greater than a quotient;
* `roundQuotient_eq`: rounding to whole numbers;
* `nearestCode_of_near`: a quotient near a finite number is rounded to its code.
-/

import PagedHtml.Number.Double
import Mathlib.Data.Rat.Cast.Order
import Mathlib.Algebra.Order.Field.Power
import Mathlib.Tactic.FieldSimp
import Mathlib.Tactic.Linarith
import Mathlib.Tactic.NormNum
import Mathlib.Tactic.Positivity
import Mathlib.Tactic.Ring

namespace PagedHtml.Number.Double

/-! ### Powers of two -/

theorem zpow_two_pos (e : Int) : (0 : ℚ) < 2 ^ e := zpow_pos (by norm_num) e

/-- A power of two in the denominator. -/
theorem den_mul_pow_le_iff {num den : Nat} (denPositive : 0 < den) (k : Nat) :
    den * Nat.pow 2 k ≤ num ↔ (2 : ℚ) ^ Int.ofNat k ≤ num / den := by
  have den' : (0 : ℚ) < den := by exact_mod_cast denPositive
  rw [le_div_iff₀ den', Nat.pow_eq, Int.ofNat_eq_natCast, zpow_natCast, mul_comm den]
  exact_mod_cast Iff.rfl

/-- A power of two in the numerator. -/
theorem den_le_num_mul_pow_iff {num den : Nat} (denPositive : 0 < den) (k : Nat) :
    den ≤ num * Nat.pow 2 (k + 1) ↔ (2 : ℚ) ^ Int.negSucc k ≤ num / den := by
  have den' : (0 : ℚ) < den := by exact_mod_cast denPositive
  have scale : (0 : ℚ) < 2 ^ (k + 1) := by positivity
  rw [le_div_iff₀ den', Nat.pow_eq, zpow_negSucc, inv_mul_le_iff₀ scale, mul_comm num]
  exact_mod_cast Iff.rfl

/-- The difference of the two logarithms is that of a quotient or one too many. -/
theorem log2_sub_log2_bounds {num den : Nat} (positive : 0 < num) (denPositive : 0 < den) :
    (2 : ℚ) ^ ((num.log2 : Int) - den.log2 - 1) ≤ num / den ∧
      (num / den : ℚ) < 2 ^ ((num.log2 : Int) - den.log2 + 1) := by
  have den' : (0 : ℚ) < den := by exact_mod_cast denPositive
  have numLow : (2 : ℚ) ^ num.log2 ≤ num := by exact_mod_cast Nat.log2_self_le positive.ne'
  have numHigh : (num : ℚ) < 2 ^ (num.log2 + 1) := by exact_mod_cast Nat.lt_log2_self
  have denLow : (2 : ℚ) ^ den.log2 ≤ den := by exact_mod_cast Nat.log2_self_le denPositive.ne'
  have denHigh : (den : ℚ) < 2 ^ (den.log2 + 1) := by exact_mod_cast Nat.lt_log2_self
  have two : (2 : ℚ) ≠ 0 := by norm_num
  constructor
  · have split : (2 : ℚ) ^ ((num.log2 : Int) - den.log2 - 1) * 2 ^ (den.log2 + 1) =
        2 ^ num.log2 := by
      rw [← zpow_natCast, ← zpow_natCast, ← zpow_add₀ two]
      congr 1
      push_cast
      ring
    rw [le_div_iff₀ den']
    calc (2 : ℚ) ^ ((num.log2 : Int) - den.log2 - 1) * den
        ≤ 2 ^ ((num.log2 : Int) - den.log2 - 1) * 2 ^ (den.log2 + 1) :=
          mul_le_mul_of_nonneg_left denHigh.le (zpow_two_pos _).le
      _ ≤ num := by rwa [split]
  · have split : (2 : ℚ) ^ ((num.log2 : Int) - den.log2 + 1) * 2 ^ den.log2 =
        2 ^ (num.log2 + 1) := by
      rw [← zpow_natCast, ← zpow_natCast, ← zpow_add₀ two]
      congr 1
      push_cast
      ring
    rw [div_lt_iff₀ den']
    calc (num : ℚ) < 2 ^ ((num.log2 : Int) - den.log2 + 1) * 2 ^ den.log2 := by rwa [split]
      _ ≤ 2 ^ ((num.log2 : Int) - den.log2 + 1) * den :=
        mul_le_mul_of_nonneg_left denLow (zpow_two_pos _).le

/-- The greatest power of two that is no greater than a positive quotient. -/
theorem floorLog2_bounds {num den : Nat} (positive : 0 < num) (denPositive : 0 < den) :
    (2 : ℚ) ^ floorLog2 num den ≤ num / den ∧ (num / den : ℚ) < 2 ^ (floorLog2 num den + 1) := by
  obtain ⟨below, above⟩ := log2_sub_log2_bounds positive denPositive
  rw [floorLog2]
  generalize (num.log2 : Int) - (den.log2 : Int) = guess at below above
  have bounds (reached : Bool) (holds : reached = true ↔ (2 : ℚ) ^ guess ≤ num / den) :
      (2 : ℚ) ^ (if reached then guess else guess - 1) ≤ num / den ∧
        (num / den : ℚ) < 2 ^ ((if reached then guess else guess - 1) + 1) := by
    cases reached with
    | true => exact ⟨holds.mp rfl, above⟩
    | false =>
      rw [if_neg Bool.false_ne_true, sub_add_cancel]
      exact ⟨below, not_le.mp fun reaches => absurd (holds.mpr reaches) Bool.false_ne_true⟩
  cases guess with
  | ofNat k => exact bounds _ (decide_eq_true_iff.trans (den_mul_pow_le_iff denPositive k))
  | negSucc k => exact bounds _ (decide_eq_true_iff.trans (den_le_num_mul_pow_iff denPositive k))

/-- A quotient lies between only two neighbouring powers of two. -/
theorem floorLog2_eq {num den : Nat} (positive : 0 < num) (denPositive : 0 < den) {e : Int}
    (low : (2 : ℚ) ^ e ≤ num / den) (high : (num / den : ℚ) < 2 ^ (e + 1)) :
    floorLog2 num den = e := by
  obtain ⟨lowest, highest⟩ := floorLog2_bounds positive denPositive
  have above : e < floorLog2 num den + 1 :=
    (zpow_lt_zpow_iff_right₀ (by norm_num)).mp (low.trans_lt highest)
  have below : floorLog2 num den < e + 1 :=
    (zpow_lt_zpow_iff_right₀ (by norm_num)).mp (lowest.trans_lt high)
  omega

/-! ### Rounding to whole numbers -/

/-- What is at most half a unit from a whole number is rounded to it, in whole numbers. -/
theorem roundQuotient_eq_of_le {num den n : Nat} (positive : 0 < den)
    (low : 2 * (den * n) ≤ 2 * num + den) (high : 2 * num ≤ 2 * (den * n) + den)
    (tie : 2 * (den * n) = 2 * num + den ∨ 2 * num = 2 * (den * n) + den → n % 2 = 0) :
    roundQuotient num den = n := by
  have division := Nat.div_add_mod num den
  have remainder := Nat.mod_lt num positive
  rw [roundQuotient]
  generalize num / den = q at division
  generalize num % den = r at division remainder
  have ordered : q = n ∨ q + 1 = n ∨ q + 1 < n ∨ n < q := by omega
  rcases ordered with rfl | rfl | less | greater
  · have exact_ : num = den * q + r := division.symm
    split_ifs
    · rfl
    · omega
    · have even : q % 2 = 0 := tie (.inr (by omega))
      omega
  · have next : den * (q + 1) = den * q + den := by ring
    split_ifs
    · omega
    · rfl
    · have even : (q + 1) % 2 = 0 := tie (.inl (by omega))
      omega
  · have far : den * (q + 2) ≤ den * n := Nat.mul_le_mul_left den less
    have next : den * (q + 2) = den * q + 2 * den := by ring
    omega
  · have far : den * (n + 1) ≤ den * q := Nat.mul_le_mul_left den greater
    have next : den * (n + 1) = den * n + den := by ring
    omega

/-- **What is at most half a unit from a whole number is rounded to it**, at half a unit if it is
even. -/
theorem roundQuotient_eq {num den n : Nat} (positive : 0 < den)
    (low : (n : ℚ) - 1 / 2 ≤ num / den) (high : (num / den : ℚ) ≤ n + 1 / 2)
    (tie : (num / den : ℚ) = n - 1 / 2 ∨ (num / den : ℚ) = n + 1 / 2 → n % 2 = 0) :
    roundQuotient num den = n := by
  have den' : (0 : ℚ) < den := by exact_mod_cast positive
  rw [le_div_iff₀ den'] at low
  rw [div_le_iff₀ den'] at high
  rw [div_eq_iff den'.ne', div_eq_iff den'.ne'] at tie
  refine roundQuotient_eq_of_le positive ?_ ?_ fun ends => tie ?_
  · have whole : (2 : ℚ) * (den * n) ≤ 2 * num + den := by linarith
    exact_mod_cast whole
  · have whole : (2 : ℚ) * num ≤ 2 * (den * n) + den := by linarith
    exact_mod_cast whole
  · rcases ends with lower | upper
    · have whole : (2 : ℚ) * (den * n) = 2 * num + den := by exact_mod_cast lower
      exact .inl (by linarith)
    · have whole : (2 : ℚ) * num = 2 * (den * n) + den := by exact_mod_cast upper
      exact .inr (by linarith)

/-! ### Rounding to finite numbers -/

/-- A power in the denominator of a quotient. -/
theorem div_den_mul_pow (base num den k : Nat) :
    (num / (den * Nat.pow base k : Nat) : ℚ) = num / den / (base : ℚ) ^ Int.ofNat k := by
  rw [Nat.pow_eq, Int.ofNat_eq_natCast, zpow_natCast, div_div]
  push_cast
  rfl

/-- A power in the numerator of a quotient. -/
theorem num_mul_pow_div (base num den k : Nat) :
    ((num * Nat.pow base (k + 1) : Nat) / den : ℚ) = num / den / (base : ℚ) ^ Int.negSucc k := by
  rw [Nat.pow_eq, zpow_negSucc, div_inv_eq_mul, div_mul_eq_mul_div]
  push_cast
  rfl

/-- Rounding in steps of a power of two. -/
theorem nearestCode_eq {num den n : Nat} {e : Int} (denPositive : 0 < den)
    (exponent : max leastExponent (floorLog2 num den - 52) = e)
    (low : (n : ℚ) - 1 / 2 ≤ num / den / 2 ^ e) (high : (num / den / 2 ^ e : ℚ) ≤ n + 1 / 2)
    (tie : (num / den / 2 ^ e : ℚ) = n - 1 / 2 ∨ (num / den / 2 ^ e : ℚ) = n + 1 / 2 →
      n % 2 = 0) :
    nearestCode num den = min infinityCode ((e - leastExponent).toNat * block + n) := by
  rw [nearestCode, exponent]
  cases e with
  | ofNat k =>
    have same := div_den_mul_pow 2 num den k
    rw [Nat.cast_ofNat] at same
    rw [← same] at low high tie
    have scaled : 0 < den * Nat.pow 2 k := Nat.mul_pos denPositive (Nat.pow_pos (by decide))
    simp only [roundQuotient_eq scaled low high tie]
  | negSucc k =>
    have same := num_mul_pow_div 2 num den k
    rw [Nat.cast_ofNat] at same
    rw [← same] at low high tie
    simp only [roundQuotient_eq denPositive low high tie]

/-- How many steps below the number of a code what is nearest to it may lie. -/
def gapBelow (code : Nat) : ℚ := if code % block == 0 && decide (block < code) then 1 / 4 else 1 / 2

/-- **That a number is nearest to the number of a finite code**, measured in the steps of the code.
-/
structure Near (code : Nat) (x : ℚ) : Prop where
  low : significandOf code - gapBelow code ≤ x / 2 ^ exponentOf code
  high : x / 2 ^ exponentOf code ≤ significandOf code + 1 / 2
  ends : x / 2 ^ exponentOf code = significandOf code - gapBelow code ∨
    x / 2 ^ exponentOf code = significandOf code + 1 / 2 → code % 2 = 0

theorem gapBelow_le (code : Nat) : gapBelow code ≤ 1 / 2 := by
  rw [gapBelow]
  split <;> norm_num

theorem le_gapBelow (code : Nat) : 1 / 4 ≤ gapBelow code := by
  rw [gapBelow]
  split <;> norm_num

/-- A significand is as even as its code. -/
theorem significandOf_mod_two (code : Nat) : significandOf code % 2 = code % 2 := by
  rw [significandOf]
  split
  · rfl
  · rw [block]
    omega

theorem significandOf_pos {code : Nat} (nonzero : code ≠ 0) : 0 < significandOf code := by
  rw [significandOf]
  have positive : 0 < block := by decide
  split <;> omega

theorem significandOf_lt (code : Nat) : significandOf code < 2 * block := by
  rw [significandOf]
  have positive : 0 < block := by decide
  split
  · omega
  · have small := Nat.mod_lt code positive
    omega

theorem leastExponent_le (code : Nat) : leastExponent ≤ exponentOf code := by
  rw [exponentOf]
  split
  · exact le_rfl
  · next large =>
    have quotient : 1 ≤ code / block := (Nat.one_le_div_iff (by decide)).mpr (not_lt.mp large)
    omega

/-- A code is put together from its exponent and its significand. -/
theorem code_eq (code : Nat) :
    (exponentOf code - leastExponent).toNat * block + significandOf code = code := by
  rw [exponentOf, significandOf]
  split
  · simp
  · next large =>
    have quotient : 1 ≤ code / block := (Nat.one_le_div_iff (by decide)).mpr (not_lt.mp large)
    have division := Nat.div_add_mod code block
    have places : (leastExponent + (code / block : Nat) - 1 - leastExponent).toNat =
        code / block - 1 := by
      omega
    rw [places, Nat.sub_mul, one_mul]
    have blocks : block ≤ code / block * block := Nat.le_mul_of_pos_left block quotient
    rw [mul_comm] at division
    omega

section

variable {code num den : Nat}

/-- What lies below the significands of a block is near only its first code, and the steps below it
are halved. -/
theorem Near.first_of_lt {x : ℚ} (near : Near code x) (above : leastExponent < exponentOf code)
    (less : x / 2 ^ exponentOf code < block) :
    significandOf code = block ∧ gapBelow code = 1 / 4 := by
  have large : block ≤ code := by
    by_contra small
    rw [exponentOf, if_pos (not_le.mp small)] at above
    exact absurd above (lt_irrefl _)
  have quotient : 2 ≤ code / block := by
    rw [exponentOf, if_neg (not_lt.mpr large)] at above
    omega
  have significand : significandOf code = block + code % block := by
    rw [significandOf, if_neg (not_lt.mpr large)]
  have gap := gapBelow_le code
  have low := near.low
  have few : (code % block : Nat) < (1 : ℚ) := by
    rw [significand] at low
    push_cast at low
    linarith
  have first : code % block = 0 := by
    have none : code % block < 1 := by exact_mod_cast few
    omega
  have beyond : block < code := by
    have division := Nat.div_add_mod code block
    have blocks : block * 2 ≤ block * (code / block) := Nat.mul_le_mul_left block quotient
    have positive : 0 < block := by decide
    omega
  exact ⟨by rw [significand, first, add_zero], by simp [gapBelow, first, beyond]⟩

theorem lt_zpow_of_div_lt {x : ℚ} {e : Int} {k : Nat} (less : x / 2 ^ e < 2 ^ k) :
    x < 2 ^ (e + k) := by
  rw [zpow_add₀ (by norm_num), zpow_natCast, mul_comm]
  exact (div_lt_iff₀ (zpow_two_pos e)).mp less

theorem zpow_le_of_le_div {x : ℚ} {e : Int} {k : Nat} (less : 2 ^ k ≤ x / 2 ^ e) :
    (2 : ℚ) ^ (e + k) ≤ x := by
  rw [zpow_add₀ (by norm_num), zpow_natCast, mul_comm]
  exact (le_div_iff₀ (zpow_two_pos e)).mp less

theorem block_eq : (block : ℚ) = 2 ^ 52 := by norm_num [block]

/-- What is near a number lies below the codes of the next block. -/
theorem Near.floorLog2_lt (positive : 0 < num) (denPositive : 0 < den)
    (near : Near code (num / den)) : floorLog2 num den < exponentOf code + 53 := by
  obtain ⟨lowest, -⟩ := floorLog2_bounds positive denPositive
  have small : (significandOf code : ℚ) + 1 ≤ 2 * block := by
    exact_mod_cast significandOf_lt code
  have less : (num / den / 2 ^ exponentOf code : ℚ) < 2 ^ 53 := by
    have high := near.high
    rw [block_eq] at small
    linarith
  exact (zpow_lt_zpow_iff_right₀ (by norm_num)).mp (lowest.trans_lt (lt_zpow_of_div_lt less))

/-- What is near a number and not below the steps of its code is rounded in these steps. -/
theorem Near.nearestCode_of_le (finite : code < infinityCode) (positive : 0 < num)
    (denPositive : 0 < den) (near : Near code (num / den))
    (reaches : exponentOf code = leastExponent ∨
      (block : ℚ) ≤ num / den / 2 ^ exponentOf code) : nearestCode num den = code := by
  have gap := gapBelow_le code
  have least := leastExponent_le code
  have logBelow := near.floorLog2_lt positive denPositive
  obtain ⟨low, high, ends⟩ := near
  have exponent : max leastExponent (floorLog2 num den - 52) = exponentOf code := by
    rcases reaches with same | large
    · omega
    · obtain ⟨-, highest⟩ := floorLog2_bounds positive denPositive
      rw [block_eq] at large
      have logAbove : exponentOf code + 52 < floorLog2 num den + 1 :=
        (zpow_lt_zpow_iff_right₀ (by norm_num)).mp ((zpow_le_of_le_div large).trans_lt highest)
      omega
  have tie : (num / den / 2 ^ exponentOf code : ℚ) = significandOf code - 1 / 2 ∨
      (num / den / 2 ^ exponentOf code : ℚ) = significandOf code + 1 / 2 →
        significandOf code % 2 = 0 := by
    rw [significandOf_mod_two]
    rintro (lower | upper)
    · exact ends (.inl (by linarith))
    · exact ends (.inr upper)
  rw [nearestCode_eq denPositive exponent (by linarith) high tie, code_eq]
  exact min_eq_right finite.le

/-- What is near a power of two and below it is rounded to it, in steps that are half as wide. -/
theorem Near.nearestCode_of_lt (finite : code < infinityCode) (positive : 0 < num)
    (denPositive : 0 < den) (near : Near code (num / den))
    (above : leastExponent < exponentOf code)
    (less : (num / den / 2 ^ exponentOf code : ℚ) < block) : nearestCode num den = code := by
  have whole := code_eq code
  obtain ⟨significand, quarter⟩ := near.first_of_lt above less
  obtain ⟨low, high, -⟩ := near
  generalize exponentOf code = e at above less whole low high
  rw [significand] at low high whole
  rw [quarter] at low
  have log : floorLog2 num den = e + 51 := by
    refine floorLog2_eq positive denPositive (zpow_le_of_le_div ?_) ?_
    · rw [block_eq] at low
      linarith
    · rw [block_eq] at less
      have bound := lt_zpow_of_div_lt less
      rwa [add_assoc]
  have halved : (num / den / 2 ^ (e - 1) : ℚ) = 2 * (num / den / 2 ^ e) := by
    rw [zpow_sub_one₀ (by norm_num)]
    field_simp
  have two : ((2 * block : Nat) : ℚ) = 2 * block := by push_cast; rfl
  have rounded := @nearestCode_eq num den (2 * block) (e - 1) denPositive (by omega)
    (by rw [halved, two]; linarith) (by rw [halved, two]; linarith) fun _ => by omega
  have places : (e - leastExponent).toNat = (e - 1 - leastExponent).toNat + 1 := by omega
  have sum : (e - 1 - leastExponent).toNat * block + 2 * block = code := by
    rw [places] at whole
    rw [← whole]
    ring
  rw [rounded, sum]
  exact min_eq_right finite.le

/-- **A quotient near a finite number is rounded to its code.** -/
theorem nearestCode_of_near (finite : code < infinityCode) (positive : 0 < num)
    (denPositive : 0 < den) (near : Near code (num / den)) : nearestCode num den = code := by
  by_cases reaches : exponentOf code = leastExponent ∨
      (block : ℚ) ≤ num / den / 2 ^ exponentOf code
  · exact near.nearestCode_of_le finite positive denPositive reaches
  · rw [not_or, not_le] at reaches
    have above := lt_of_le_of_ne (leastExponent_le code) (Ne.symm reaches.1)
    exact near.nearestCode_of_lt finite positive denPositive above reaches.2

end

end PagedHtml.Number.Double
