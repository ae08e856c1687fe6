/-
**The shortest decimal for a finite number is read back as this number.**

The interval of a code holds just the quotients that are nearest to its number
(`Interval.contains_ofCode_iff`). A decimal with seventeen digits behind the leading one always lies
in it, so a shortest one is found; zeros moved into its power change nothing
(`Decimal.value_normalize`), and no finite number lies so far out that the reader of decimals would
give up on it (`Double.near_bounds`).

* `near_shortest`: the shortest decimal for a number is near it;
* `Double.ofDecimal_of_near`: a decimal near a finite number is read as this number;
* `Literal.value_ofDouble_eq`: a finite number is read back from its text.
-/

import PagedHtml.Proofs.Number.Rounding
import PagedHtml.Proofs.Number.Written
import Mathlib.Data.List.TakeWhile
import Mathlib.Data.Nat.Cast.Order.Field

namespace PagedHtml.Number

open Double (Near significandOf exponentOf gapBelow block infinityCode)

/-! ### The interval of a code -/

namespace Interval

/-- The interval of a code in quarters of its step. -/
theorem exists_ofCode_eq {code : Nat} (nonzero : code ≠ 0) :
    ∃ a b low : Nat, 0 < a ∧ 0 < b ∧ (a / b : ℚ) = 2 ^ exponentOf code ∧
      (low / 4 : ℚ) = significandOf code - gapBelow code ∧
      ofCode code =
        ⟨low * a, 4 * significandOf code * a, (4 * significandOf code + 2) * a, 4 * b,
          code % 2 == 0⟩ := by
  have significand := Double.significandOf_pos nonzero
  have low (narrow : Bool) :
      ((4 * significandOf code - (if narrow then 1 else 2) : Nat) / 4 : ℚ) =
        significandOf code - (if narrow then 1 / 4 else 1 / 2) := by
    rw [Nat.cast_sub (by split <;> omega)]
    push_cast
    split <;> ring
  rw [ofCode, gapBelow]
  cases exponentOf code with
  | ofNat k =>
    refine ⟨Nat.pow 2 k, 1, _, Nat.pow_pos (by decide), Nat.one_pos, ?_, low _, rfl⟩
    rw [Nat.pow_eq, Int.ofNat_eq_natCast, zpow_natCast]
    push_cast
    rw [div_one]
  | negSucc k =>
    refine ⟨1, Nat.pow 2 (k + 1), _, Nat.one_pos, Nat.pow_pos (by decide), ?_, low _, ?_⟩
    · rw [Nat.pow_eq, zpow_negSucc]
      push_cast
      rw [one_div]
    · simp only [mul_one]

/-- **The interval of a code holds just the quotients near its number.** -/
theorem contains_ofCode_iff {code num den : Nat} (nonzero : code ≠ 0) (positive : 0 < den) :
    (ofCode code).contains num den = true ↔ Near code (num / den) := by
  obtain ⟨a, b, lowest, aPositive, bPositive, scale, lower, whole⟩ := exists_ofCode_eq nonzero
  have a' : (0 : ℚ) < a := by exact_mod_cast aPositive
  have b' : (0 : ℚ) < b := by exact_mod_cast bPositive
  have den' : (0 : ℚ) < den := by exact_mod_cast positive
  have upper : ((4 * significandOf code + 2 : Nat) : ℚ) / 4 = significandOf code + 1 / 2 := by
    push_cast
    ring
  -- Quarters of a step are compared as whole numbers.
  generalize steps_eq : (num / den / 2 ^ exponentOf code : ℚ) = steps
  have product : (num * (4 * b) : ℚ) = 4 * steps * (a * den) := by
    rw [← steps_eq, ← scale]
    field_simp
  have below (k : Nat) : k * a * den ≤ num * (4 * b) ↔ (k : ℚ) / 4 ≤ steps := by
    rw [div_le_iff₀' four_pos, ← mul_le_mul_iff_left₀ (mul_pos a' den'), ← product,
      ← mul_assoc (k : ℚ)]
    norm_cast
  have above (k : Nat) : num * (4 * b) ≤ k * a * den ↔ steps ≤ (k : ℚ) / 4 := by
    rw [le_div_iff₀' four_pos, ← mul_le_mul_iff_left₀ (mul_pos a' den'), ← product,
      ← mul_assoc (k : ℚ)]
    norm_cast
  rw [whole, contains]
  by_cases even : code % 2 = 0
  · simp only [even, beq_self_eq_true, if_true, Bool.and_eq_true, decide_eq_true_eq, below, above,
      lower, upper]
    exact ⟨fun ⟨low, high⟩ => ⟨steps_eq ▸ low, steps_eq ▸ high, fun _ => even⟩,
      fun near => ⟨steps_eq ▸ near.low, steps_eq ▸ near.high⟩⟩
  · simp only [beq_iff_eq, even, if_false, Bool.and_eq_true, decide_eq_true_eq, ← not_le, below,
      above, lower, upper]
    simp only [not_le]
    refine ⟨fun ⟨low, high⟩ => ⟨steps_eq ▸ low.le, steps_eq ▸ high.le, fun ends => ?_⟩,
      fun near => ⟨?_, ?_⟩⟩
    · rw [steps_eq] at ends
      rcases ends with same | same
      · exact absurd same low.ne'
      · exact absurd same high.ne
    · exact steps_eq ▸ near.low.lt_of_ne fun same => even (near.ends (.inl same.symm))
    · exact steps_eq ▸ near.high.lt_of_ne fun same => even (near.ends (.inr same))

/-! ### The decimals that are tried -/

/-- The leading place of a positive middle is no greater than the middle. -/
theorem zpow_leadingPlace_le {interval : Interval} (positive : 0 < interval.middle)
    (denPositive : 0 < interval.den) :
    (10 : ℚ) ^ interval.leadingPlace ≤ interval.middle / interval.den := by
  have middle' : (0 : ℚ) < interval.middle := by exact_mod_cast positive
  have den' : (0 : ℚ) < interval.den := by exact_mod_cast denPositive
  have division := Nat.div_add_mod interval.den interval.middle
  have remainder := Nat.mod_lt interval.den positive
  rw [leadingPlace]
  generalize inverse_eq : interval.den / interval.middle = inverse at division
  simp only
  split_ifs with small exact_
  · obtain ⟨whole, power⟩ := exact_
    have length := Double.decimalLength_pos inverse
    have place : (1 - (Double.decimalLength inverse : Int)) =
        -((Double.decimalLength inverse - 1 : Nat) : Int) := by
      omega
    have scaled : interval.den = interval.middle * 10 ^ (Double.decimalLength inverse - 1) := by
      rw [← whole, mul_comm]
      exact congrArg _ power
    rw [place, zpow_neg, zpow_natCast, inv_le_iff_one_le_mul₀ (by positivity), div_mul_eq_mul_div,
      one_le_div den']
    exact_mod_cast scaled.le
  · have inversePositive : 0 < inverse := by
      rw [← inverse_eq]
      refine Nat.div_pos ?_ positive
      have less := (Nat.div_eq_zero_iff.mp small).resolve_left denPositive.ne'
      exact less.le
    have high : inverse + 1 ≤ 10 ^ Double.decimalLength inverse :=
      (Double.decimalLength_bounds inversePositive).2
    have bound : interval.den ≤ interval.middle * 10 ^ Double.decimalLength inverse :=
      calc interval.den ≤ interval.middle * (inverse + 1) := by rw [Nat.mul_succ]; omega
        _ ≤ _ := Nat.mul_le_mul_left _ high
    rw [zpow_neg, zpow_natCast, inv_le_iff_one_le_mul₀ (by positivity), div_mul_eq_mul_div,
      one_le_div den']
    exact_mod_cast bound
  · have wholePositive : 0 < interval.middle / interval.den := Nat.pos_of_ne_zero small
    have length := Double.decimalLength_pos (interval.middle / interval.den)
    obtain ⟨low, -⟩ := Double.decimalLength_bounds wholePositive
    rw [← Int.natCast_pred_of_pos length, zpow_natCast]
    calc (10 : ℚ) ^ (Double.decimalLength (interval.middle / interval.den) - 1)
        ≤ (interval.middle / interval.den : Nat) := by exact_mod_cast low
      _ ≤ interval.middle / interval.den := Nat.cast_div_le

/-- Whether a decimal lies in an interval. -/
def holds (interval : Interval) (decimal : Decimal) : Bool :=
  match decimal.power with
  | .ofNat k => interval.contains (decimal.digits * Nat.pow 10 k) 1
  | .negSucc k => interval.contains decimal.digits (Nat.pow 10 (k + 1))

theorem holds_of_candidate {interval : Interval} {tie : Tie} {power : Int} {decimal : Decimal}
    (found : interval.candidate tie power = some decimal) : interval.holds decimal = true := by
  cases power with
  | ofNat k =>
    simp only [candidate] at found
    split_ifs at found <;> cases found <;> assumption
  | negSucc k =>
    simp only [candidate] at found
    split_ifs at found <;> cases found <;> assumption

theorem div_bounds {num den : Nat} (positive : 0 < den) :
    ((num / den : Nat) : ℚ) ≤ num / den ∧ (num / den : ℚ) < (num / den : Nat) + 1 := by
  refine ⟨Nat.cast_div_le, ?_⟩
  have den' : (0 : ℚ) < den := by exact_mod_cast positive
  rw [div_lt_iff₀ den']
  rw [mul_comm]
  exact_mod_cast Nat.lt_mul_div_succ num positive

/-- A remainder of half the divisor or more. -/
theorem le_two_mul_mod_iff {num den : Nat} (positive : 0 < den) :
    den ≤ 2 * (num % den) ↔ ((num / den : Nat) + 1 / 2 : ℚ) ≤ num / den := by
  have den' : (0 : ℚ) < den := by exact_mod_cast positive
  have division : (den * (num / den : Nat) + (num % den : Nat) : ℚ) = num := by
    exact_mod_cast Nat.div_add_mod num den
  have double : (den : ℚ) ≤ 2 * (num % den : Nat) ↔ den ≤ 2 * (num % den) := by norm_cast
  rw [← double, le_div_iff₀ den']
  constructor <;> intro <;> linarith

/-- The first of two neighbours that is inside, by which of them is looked at first. -/
def pick (upper : Bool) (inside : Nat → Bool) (below : Nat) (power : Int) : Option Decimal :=
  let (first, second) := if upper then (below + 1, below) else (below, below + 1)
  if inside first then some ⟨first, power⟩
  else if inside second then some ⟨second, power⟩
  else none

theorem isSome_pick {upper : Bool} {inside : Nat → Bool} {below digits : Nat}
    (beside : digits = below ∨ digits = below + 1) (isInside : inside digits = true)
    (power : Int) : (pick upper inside below power).isSome := by
  rcases beside with rfl | rfl <;> cases upper <;> simp only [pick] <;> split_ifs <;> simp_all

theorem eq_of_pick {upper : Bool} {inside : Nat → Bool} {below : Nat} {power : Int}
    {found : Decimal} (picked : pick upper inside below power = some found) :
    found = ⟨below, power⟩ ∧ inside below = true ∧ (inside (below + 1) = true → upper = false) ∨
      found = ⟨below + 1, power⟩ ∧ inside (below + 1) = true ∧
        (inside below = true → upper = true) := by
  cases upper <;> simp only [pick] at picked <;> split_ifs at picked <;> cases picked <;> simp_all

/-- The candidate of a grid is picked between the two neighbours of the middle. -/
theorem exists_pick {interval : Interval} (denPositive : 0 < interval.den) (tie : Tie)
    (power : Int) :
    ∃ num den : Nat, ∃ upper : Bool, 0 < den ∧
      (num / den : ℚ) = interval.middle / interval.den / 10 ^ power ∧
      (tie = .away → (upper = true ↔ den ≤ 2 * (num % den))) ∧
      interval.candidate tie power =
        pick upper (fun digits => interval.holds ⟨digits, power⟩) (num / den) power := by
  have away (num den : Nat) :
      (if 2 * (num % den) = den then true else decide (den < 2 * (num % den))) = true ↔
        den ≤ 2 * (num % den) := by
    split_ifs with half
    · simp [half]
    · rw [decide_eq_true_iff]
      omega
  cases power with
  | ofNat k =>
    have scaled : 0 < interval.den * Nat.pow 10 k :=
      Nat.mul_pos denPositive (Nat.pow_pos (by decide))
    have quotient := Double.div_den_mul_pow 10 interval.middle interval.den k
    cases tie with
    | away => exact ⟨_, _, _, scaled, quotient, fun _ => away _ _, rfl⟩
    | even => exact ⟨_, _, _, scaled, quotient, nofun, rfl⟩
  | negSucc k =>
    have quotient := Double.num_mul_pow_div 10 interval.middle interval.den k
    cases tie with
    | away => exact ⟨_, _, _, denPositive, quotient, fun _ => away _ _, rfl⟩
    | even => exact ⟨_, _, _, denPositive, quotient, nofun, rfl⟩

/-- **The candidate of a grid is one of the two neighbours of the middle**, the closer one if both
are in the interval. -/
theorem exists_neighbours {interval : Interval} (denPositive : 0 < interval.den) (tie : Tie)
    (power : Int) :
    ∃ below : Nat, (below : ℚ) ≤ interval.middle / interval.den / 10 ^ power ∧
      (interval.middle / interval.den / 10 ^ power : ℚ) < below + 1 ∧
      (∀ digits, digits = below ∨ digits = below + 1 → interval.holds ⟨digits, power⟩ = true →
        (interval.candidate tie power).isSome) ∧
      ∀ found, interval.candidate tie power = some found →
        found = ⟨below, power⟩ ∧ (tie = .away → interval.holds ⟨below + 1, power⟩ = true →
            (interval.middle / interval.den / 10 ^ power : ℚ) < below + 1 / 2) ∨
          found = ⟨below + 1, power⟩ ∧ (tie = .away → interval.holds ⟨below, power⟩ = true →
            (below + 1 / 2 : ℚ) ≤ interval.middle / interval.den / 10 ^ power) := by
  obtain ⟨num, den, upper, positive, quotient, away, candidate⟩ :=
    exists_pick denPositive tie power
  obtain ⟨least, greatest⟩ := @div_bounds num den positive
  have half : den ≤ 2 * (num % den) ↔ ((num / den : Nat) + 1 / 2 : ℚ) ≤ num / den :=
    le_two_mul_mod_iff positive
  rw [quotient] at least greatest half
  rw [candidate]
  refine ⟨num / den, least, greatest, fun digits beside inside => isSome_pick beside inside power,
    fun found picked => ?_⟩
  rcases eq_of_pick picked with ⟨same, -, lower⟩ | ⟨same, -, higher⟩
  · refine .inl ⟨same, fun isAway inside => not_le.mp fun above => ?_⟩
    rw [(away isAway).mpr (half.mpr above)] at lower
    cases lower inside
  · exact .inr ⟨same, fun isAway inside => half.mp ((away isAway).mp (higher inside))⟩

end Interval

/-! ### The shortest decimal -/

namespace Decimal

/-- The number that a decimal denotes. -/
def value (decimal : Decimal) : ℚ := decimal.digits * 10 ^ decimal.power

/-- A decimal with a whole value, as a quotient. -/
theorem mul_pow_div_one (digits k : Nat) :
    ((digits * Nat.pow 10 k : Nat) / (1 : Nat) : ℚ) = value ⟨digits, .ofNat k⟩ := by
  rw [value, Nat.pow_eq, Int.ofNat_eq_natCast, zpow_natCast]
  push_cast
  rw [div_one]

/-- A decimal with places after the point, as a quotient. -/
theorem div_pow (digits k : Nat) :
    (digits / (Nat.pow 10 (k + 1) : Nat) : ℚ) = value ⟨digits, .negSucc k⟩ := by
  rw [value, Nat.pow_eq, zpow_negSucc, div_eq_mul_inv]
  push_cast
  rfl

/-- Zeros moved from the digits into the power change nothing. -/
theorem value_normalize (digits : Nat) (power : Int) :
    (normalize digits power).value = digits * 10 ^ power := by
  rw [normalize]
  split_ifs with zero
  · simp [value, zero]
  · -- The digits end in just the zeros that are counted.
    generalize zeros_eq : ((Nat.toDigits 10 digits).reverse.takeWhile (· == '0')).length = zeros
    have trailing : (Nat.toDigits 10 digits).reverse.takeWhile (· == '0') =
        List.replicate zeros '0' := by
      refine List.eq_replicate_iff.mpr ⟨zeros_eq, fun c member => ?_⟩
      exact beq_iff_eq.mp (List.mem_takeWhile_imp (p := (· == '0')) member)
    have whole := congrArg List.reverse
      (@List.takeWhile_append_dropWhile _ (· == '0') (Nat.toDigits 10 digits).reverse)
    rw [List.reverse_reverse, List.reverse_append, trailing, List.reverse_replicate] at whole
    have scaled := digitsValue_toDigits digits
    rw [← whole, digitsValue_append_zeros] at scaled
    generalize digitsValue _ = front at scaled
    have quotient : digits / Nat.pow 10 zeros = front := by
      rw [← scaled, Nat.pow_eq]
      exact Nat.mul_div_cancel front (by positivity)
    rw [value, quotient, zpow_add₀ (by norm_num), zpow_natCast, ← scaled]
    push_cast
    ring

/-- A power of ten loses its zeros, and other digits do not become more. -/
theorem digits_normalize_lt {digits n : Nat} (few : digits ≤ 10 ^ (n + 1)) (power : Int) :
    (normalize digits power).digits < 10 ^ (n + 1) := by
  have positive : 0 < 10 ^ (n + 1) := by positivity
  rw [normalize]
  split_ifs with zero
  · exact positive
  · show digits / Nat.pow 10 _ < _
    rcases few.lt_or_eq with less | rfl
    · exact (Nat.div_le_self _ _).trans_lt less
    · have last : Nat.toDigits 10 (10 ^ (n + 1)) = Nat.toDigits 10 (10 ^ n) ++ ['0'] := by
        have large : 10 ≤ 10 ^ (n + 1) := Nat.le_self_pow (Nat.succ_ne_zero n) 10
        rw [Nat.toDigits_of_base_le (by decide) large, pow_succ, Nat.mul_mod_left,
          Nat.mul_div_cancel _ (by decide)]
        rfl
      refine Nat.div_lt_self positive (Nat.one_lt_pow ?_ (by decide))
      rw [last, List.reverse_append]
      simp

end Decimal

/-- A decimal lies in the interval of a code if it is near its number. -/
theorem Interval.holds_ofCode_iff {code : Nat} (nonzero : code ≠ 0) (decimal : Decimal) :
    (Interval.ofCode code).holds decimal = true ↔ Near code decimal.value := by
  obtain ⟨digits, power⟩ := decimal
  cases power with
  | ofNat k =>
    rw [← Decimal.mul_pow_div_one]
    exact contains_ofCode_iff nonzero Nat.one_pos
  | negSucc k =>
    rw [← Decimal.div_pow]
    exact contains_ofCode_iff nonzero (Nat.pow_pos (by decide))

/-- What lies less than a quarter of a step below a number is near it. -/
theorem near_of_close {code : Nat} {x : ℚ}
    (low : (significandOf code : ℚ) - 1 / 4 < x / 2 ^ exponentOf code)
    (high : x / 2 ^ exponentOf code ≤ significandOf code) : Near code x := by
  have gap := Double.le_gapBelow code
  refine ⟨by linarith, by linarith, fun ends => ?_⟩
  rcases ends with same | same <;> linarith

/-- The middle of the interval of a code is its number. -/
theorem Interval.middle_ofCode {code : Nat} (nonzero : code ≠ 0) :
    0 < (ofCode code).middle ∧ 0 < (ofCode code).den ∧
      ((ofCode code).middle / (ofCode code).den : ℚ) =
        significandOf code * 2 ^ exponentOf code := by
  have significand := Double.significandOf_pos nonzero
  obtain ⟨a, b, low, aPositive, bPositive, scale, -, whole⟩ := exists_ofCode_eq nonzero
  rw [whole]
  refine ⟨by positivity, by positivity, ?_⟩
  rw [← scale]
  push_cast
  field_simp

/-- Seventeen places behind the leading one the grid is finer than a quarter of a step. -/
theorem Interval.zpow_leadingPlace_sub_lt {code : Nat} (nonzero : code ≠ 0) :
    (10 : ℚ) ^ ((ofCode code).leadingPlace - 17) < 1 / 4 * 2 ^ exponentOf code := by
  obtain ⟨positive, denPositive, middle⟩ := middle_ofCode nonzero
  have leading := zpow_leadingPlace_le positive denPositive
  have step : (0 : ℚ) < 2 ^ exponentOf code := Double.zpow_two_pos _
  have small : (significandOf code : ℚ) < 2 * block := by
    exact_mod_cast Double.significandOf_lt code
  rw [zpow_sub₀ (by norm_num), div_lt_iff₀ (by positivity)]
  calc (10 : ℚ) ^ (ofCode code).leadingPlace
      ≤ significandOf code * 2 ^ exponentOf code := middle ▸ leading
    _ < 2 * block * 2 ^ exponentOf code := mul_lt_mul_of_pos_right small step
    _ = 2 ^ exponentOf code * 2 ^ 53 := by rw [Double.block_eq]; ring
    _ ≤ 2 ^ exponentOf code * (1 / 4 * 10 ^ (17 : Int)) :=
      mul_le_mul_of_nonneg_left (by norm_num) step.le
    _ = 1 / 4 * 2 ^ exponentOf code * 10 ^ (17 : Int) := by ring

/-- Seventeen digits behind the leading one suffice. -/
theorem isSome_candidate_seventeen {code : Nat} (nonzero : code ≠ 0) (tie : Tie) :
    ((Interval.ofCode code).candidate tie ((Interval.ofCode code).leadingPlace - 17)).isSome := by
  obtain ⟨-, denPositive, middle⟩ := Interval.middle_ofCode nonzero
  have fine := Interval.zpow_leadingPlace_sub_lt nonzero
  obtain ⟨below, least, greatest, isSome, -⟩ := Interval.exists_neighbours denPositive tie
    ((Interval.ofCode code).leadingPlace - 17)
  refine isSome below (.inl rfl) ((Interval.holds_ofCode_iff nonzero _).mpr ?_)
  have step : (0 : ℚ) < 2 ^ exponentOf code := Double.zpow_two_pos _
  have grid : (0 : ℚ) < 10 ^ ((Interval.ofCode code).leadingPlace - 17) :=
    zpow_pos (by norm_num) _
  rw [middle] at least greatest
  rw [le_div_iff₀ grid] at least
  rw [div_lt_iff₀ grid] at greatest
  refine near_of_close ?_ ?_
  · rw [Decimal.value, lt_div_iff₀ step]
    linarith
  · rw [Decimal.value, div_le_iff₀ step]
    exact least

/-- **The search for the shortest decimal ends**, at the first grid with a candidate. -/
theorem exists_shortest {code : Nat} (nonzero : code ≠ 0) (tie : Tie) :
    let interval := Interval.ofCode code
    ∃ (n : Nat) (found : Decimal),
      interval.candidate tie (interval.leadingPlace - n) = some found ∧
        (∀ m < n, interval.candidate tie (interval.leadingPlace - (m : Nat)) = none) ∧
        shortest tie code = Decimal.normalize found.digits found.power := by
  rw [shortest, if_neg nonzero]
  simp only
  split
  · next found search =>
    obtain ⟨before, n, after, range, candidate, none⟩ := List.findSome?_eq_some_iff.mp search
    refine ⟨n, found, candidate, fun m less => none m ?_, rfl⟩
    have sorted := List.pairwise_lt_range (n := 18)
    rw [range, List.pairwise_append, List.pairwise_cons] at sorted
    have bound : n < 18 := List.mem_range.mp (range ▸ by simp)
    have member : m ∈ before ++ n :: after := range ▸ List.mem_range.mpr (less.trans bound)
    rcases List.mem_append.mp member with front | behind
    · exact front
    · rcases List.mem_cons.mp behind with rfl | behind
      · exact absurd less (lt_irrefl m)
      · exact absurd less (sorted.2.1.1 m behind).not_gt
  · next missing =>
    have none := List.findSome?_eq_none_iff.mp missing 17 (by decide)
    have isSome := isSome_candidate_seventeen nonzero tie
    rw [Nat.cast_ofNat] at none
    rw [none] at isSome
    exact absurd isSome Bool.false_ne_true

/-- **The shortest decimal for a number other than zero is near it.** -/
theorem near_shortest {code : Nat} (nonzero : code ≠ 0) (tie : Tie) :
    Near code (shortest tie code).value := by
  obtain ⟨n, found, candidate, -, same⟩ := exists_shortest nonzero tie
  rw [same, Decimal.value_normalize]
  exact (Interval.holds_ofCode_iff nonzero found).mp (Interval.holds_of_candidate candidate)

/-! ### Reading a decimal near a number -/

namespace Double

/-- The exponent of a finite number. -/
theorem exponentOf_le {code : Nat} (finite : code < infinityCode) : exponentOf code ≤ 971 := by
  rw [exponentOf]
  split
  · decide
  · have quotient : code / block < 2047 := Nat.div_lt_of_lt_mul (by rwa [mul_comm])
    rw [leastExponent]
    omega

/-- What is near a finite number other than zero lies within the range of the finite numbers. -/
theorem near_bounds {code : Nat} {x : ℚ} (nonzero : code ≠ 0) (finite : code < infinityCode)
    (near : Near code x) : (2 : ℚ) ^ (-1075 : Int) ≤ x ∧ x < 2 ^ (1025 : Int) := by
  have step := zpow_two_pos (exponentOf code)
  have gap := gapBelow_le code
  have significand : (1 : ℚ) ≤ significandOf code := by
    exact_mod_cast significandOf_pos nonzero
  have small : (significandOf code : ℚ) + 1 ≤ 2 ^ 53 := by
    exact_mod_cast significandOf_lt code
  constructor
  · have half : (2 : ℚ) ^ (-1 : Int) ≤ x / 2 ^ exponentOf code := by
      have low := near.low
      norm_num
      linarith
    rw [le_div_iff₀ step, ← zpow_add₀ (by norm_num)] at half
    refine le_trans (zpow_le_zpow_right₀ (by norm_num) ?_) half
    have least := leastExponent_le code
    rw [leastExponent] at least
    omega
  · have less : x / 2 ^ exponentOf code < 2 ^ 53 := by
      have high := near.high
      linarith
    refine lt_of_lt_of_le (lt_zpow_of_div_lt less) (zpow_le_zpow_right₀ (by norm_num) ?_)
    have greatest := exponentOf_le finite
    omega

/-- A decimal between two powers of ten, by its length and its power. -/
theorem leading_bounds {decimal : Decimal} (positive : 0 < decimal.digits) :
    (10 : ℚ) ^ ((decimalLength decimal.digits : Int) + decimal.power - 1) ≤ decimal.value ∧
      decimal.value < 10 ^ ((decimalLength decimal.digits : Int) + decimal.power) := by
  have length := decimalLength_pos decimal.digits
  obtain ⟨low, high⟩ := decimalLength_bounds positive
  have scale : (0 : ℚ) < 10 ^ decimal.power := zpow_pos (by norm_num) _
  constructor
  · have places : (decimalLength decimal.digits : Int) + decimal.power - 1 =
        (decimalLength decimal.digits - 1 : Nat) + decimal.power := by
      omega
    rw [places, zpow_add₀ (by norm_num), zpow_natCast, Decimal.value]
    exact mul_le_mul_of_nonneg_right (by exact_mod_cast low) scale.le
  · rw [zpow_add₀ (by norm_num), zpow_natCast, Decimal.value]
    exact mul_lt_mul_of_pos_right (by exact_mod_cast high) scale

/-- **A decimal near a finite number is read as this number.** -/
theorem ofDecimal_of_near {code : Nat} {decimal : Decimal} (nonzero : code ≠ 0)
    (finite : code < infinityCode) (near : Near code decimal.value) (negative : Bool) :
    ofDecimal negative decimal.digits decimal.power = ⟨negative, code⟩ := by
  obtain ⟨least, greatest⟩ := near_bounds nonzero finite near
  have valuePositive : 0 < decimal.value := (zpow_two_pos _).trans_le least
  have positive : 0 < decimal.digits := by
    rw [Nat.pos_iff_ne_zero]
    intro zero
    rw [Decimal.value, zero, Nat.cast_zero, zero_mul] at valuePositive
    exact absurd valuePositive (lt_irrefl _)
  obtain ⟨low, high⟩ := leading_bounds positive
  have large : ¬ (decimalLength decimal.digits : Int) + decimal.power < -330 := by
    intro less
    have bound : (2 : ℚ) ^ (-1075 : Int) < 10 ^ (-330 : Int) :=
      (least.trans_lt high).trans (zpow_lt_zpow_right₀ (by norm_num) less)
    have powers : ((2 ^ 1075 : Nat) : ℚ) < (10 ^ 330 : Nat) :=
      Nat.cast_lt.mpr (by decide +kernel)
    rw [Nat.cast_pow, Nat.cast_pow, Nat.cast_ofNat, Nat.cast_ofNat] at powers
    rw [zpow_neg, zpow_neg, inv_lt_inv₀ (zpow_two_pos _) (zpow_pos (by norm_num) _), zpow_ofNat,
      zpow_ofNat] at bound
    exact absurd powers bound.not_gt
  have small : ¬ 310 < (decimalLength decimal.digits : Int) + decimal.power := by
    intro more
    have bound : (10 : ℚ) ^ (310 : Int) < 2 ^ (1025 : Int) :=
      ((zpow_le_zpow_right₀ (by norm_num) (by omega)).trans low).trans_lt greatest
    have powers : ((2 ^ 1025 : Nat) : ℚ) < (10 ^ 310 : Nat) :=
      Nat.cast_lt.mpr (by decide +kernel)
    rw [Nat.cast_pow, Nat.cast_pow, Nat.cast_ofNat, Nat.cast_ofNat] at powers
    rw [zpow_ofNat, zpow_ofNat] at bound
    exact absurd powers bound.not_gt
  obtain ⟨digits, power⟩ := decimal
  unfold ofDecimal
  cases power with
  | ofNat k =>
    simp only [positive.ne', large, small, false_or, if_false, ofRatio]
    rw [← Decimal.mul_pow_div_one] at near
    have scaled : 0 < digits * Nat.pow 10 k := Nat.mul_pos positive (Nat.pow_pos (by decide))
    rw [if_neg scaled.ne', nearestCode_of_near finite scaled Nat.one_pos near]
  | negSucc k =>
    simp only [positive.ne', large, small, false_or, if_false, ofRatio]
    rw [← Decimal.div_pow] at near
    exact congrArg (Double.mk negative)
      (nearestCode_of_near finite positive (Nat.pow_pos (by decide)) near)

end Double

/-! ### Numbers written and read back -/

/-- **A finite number is read back from its text.** -/
theorem Literal.value_ofDouble_eq {d : Double} (finite : d.isInfinite = false) :
    (ofDouble d).value = d := by
  rw [value_ofDouble]
  rw [Double.isInfinite, decide_eq_false_iff_not, not_le] at finite
  by_cases zero : d.code = 0
  · rw [zero, shortest, if_pos rfl]
    simp [Double.ofDecimal, ← zero]
  · exact Double.ofDecimal_of_near zero finite (near_shortest zero .away) d.negative

end PagedHtml.Number
