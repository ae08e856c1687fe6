/-
**Whole numbers of at most 53 bits are numbers of their own**, and are written digit by digit.

Such a number is the significand of a code whose step is at most one (`exists_isWhole`), so no other
whole number is near the code. The grids on which the shortest decimal is searched hold nothing but
whole numbers down to the last place before the point, where the number itself is found.

* `ofNat_eq`: a whole number is rounded to its own code;
* `exists_shortest_whole`: its shortest decimal has no places behind the point;
* `scientificBeyond_ofNat`: its text is its digits and a fraction that is zero.
-/

import PagedHtml.Proofs.Number.Integers

namespace PagedHtml.Number

/-! ### Digits -/

theorem toDigits_mul_pow {n : Nat} (positive : 0 < n) (k : Nat) :
    Nat.toDigits 10 (n * 10 ^ k) = Nat.toDigits 10 n ++ List.replicate k '0' := by
  induction k with
  | zero => rw [pow_zero, mul_one, List.replicate_zero, List.append_nil]
  | succ k ih =>
    have scaled : 0 < n * 10 ^ k := Nat.mul_pos positive (by positivity)
    have last := Nat.toDigits_append_toDigits (b := 10) (by decide) scaled (by decide : 0 < 10)
    rw [ih, Nat.toDigits_zero, List.append_assoc, ← List.replicate_succ'] at last
    rw [last, pow_succ, add_zero]
    ring_nf

/-- The first digit of a number is zero only if the number is. -/
theorem head?_toDigits_ne_zero {n : Nat} (positive : 0 < n) :
    (Nat.toDigits 10 n).head? ≠ some '0' := by
  induction n using Nat.strongRecOn with
  | ind n ih =>
    rcases Nat.lt_or_ge n 10 with digit | large
    · rw [Nat.toDigits_of_lt_base digit]
      have every : ∀ m < 10, 0 < m → [m.digitChar].head? ≠ some '0' := by decide
      exact every n digit positive
    · have front : 0 < n / 10 := Nat.div_pos large (by decide)
      rw [Nat.toDigits_of_base_le (by decide) large,
        List.head?_append_of_ne_nil _ Nat.toDigits_ne_nil]
      exact ih (n / 10) (Nat.div_lt_self positive (by decide)) front

theorem Decimal.power_normalize_nonneg (digits : Nat) {power : Int} (nonneg : 0 ≤ power) :
    0 ≤ (normalize digits power).power := by
  rw [normalize]
  split_ifs
  · exact le_rfl
  · exact add_nonneg nonneg (Int.natCast_nonneg _)

namespace Double

/-! ### Codes of whole numbers -/

/-- **That a code stands for a whole number** other than zero, and the steps about it are at most
one. -/
structure IsWhole (code n : Nat) : Prop where
  positive : 0 < n
  finite : code < infinityCode
  step_le : exponentOf code ≤ 0
  magnitude : magnitude code = n

/-- Every whole number of at most 53 bits has a code. -/
theorem exists_isWhole {n : Nat} (positive : 0 < n) (small : n < 2 ^ 53) :
    ∃ code, IsWhole code n := by
  have log : n.log2 < 53 := (Nat.log2_lt positive.ne').mpr small
  obtain ⟨d, places⟩ : ∃ d, n.log2 + d = 52 := ⟨52 - n.log2, by omega⟩
  have low : block ≤ n * 2 ^ d := by
    calc block = 2 ^ n.log2 * 2 ^ d := by rw [← pow_add, places]; rfl
      _ ≤ n * 2 ^ d := Nat.mul_le_mul_right _ (Nat.log2_self_le positive.ne')
  have high : n * 2 ^ d < 2 * block := by
    calc n * 2 ^ d < 2 ^ (n.log2 + 1) * 2 ^ d := Nat.mul_lt_mul_of_pos_right
          Nat.lt_log2_self (by positivity)
      _ = 2 * block := by rw [← pow_add, add_right_comm, places]; rfl
  have quotient : (n * 2 ^ d + block * (n.log2 + 1022)) / block = n.log2 + 1023 := by
    rw [Nat.add_mul_div_left _ _ (by decide), Nat.div_eq_of_lt_le (k := 1)] <;> omega
  have remainder : (n * 2 ^ d + block * (n.log2 + 1022)) % block = n * 2 ^ d - block := by
    rw [Nat.add_mul_mod_self_left, Nat.mod_eq_sub_mod low, Nat.mod_eq_of_lt (by omega)]
  have large : ¬ n * 2 ^ d + block * (n.log2 + 1022) < block := by omega
  have exponent : exponentOf (n * 2 ^ d + block * (n.log2 + 1022)) = -(d : Int) := by
    rw [exponentOf, if_neg large, quotient, leastExponent]
    omega
  have significand : significandOf (n * 2 ^ d + block * (n.log2 + 1022)) = n * 2 ^ d := by
    rw [significandOf, if_neg large, remainder]
    omega
  refine ⟨n * 2 ^ d + block * (n.log2 + 1022), positive, ?_, by omega, ?_⟩
  · rw [infinityCode, block]
    rw [block] at high
    omega
  · rw [Double.magnitude, exponent, significand, zpow_neg, zpow_natCast]
    push_cast
    field_simp

namespace IsWhole

variable {code m n : Nat}

theorem near (whole : IsWhole code n) : Near code n := by
  have same : (n : ℚ) / 2 ^ exponentOf code = significandOf code := by
    rw [← whole.magnitude, magnitude_div]
  exact near_of_close (by rw [same]; linarith) same.le

theorem code_ne_zero (whole : IsWhole code n) : code ≠ 0 := by
  rintro rfl
  have number := whole.magnitude
  rw [Double.magnitude, show significandOf 0 = 0 from rfl, Nat.cast_zero, zero_mul] at number
  exact whole.positive.ne (by exact_mod_cast number)

/-- No other whole number is near the code of a whole number. -/
theorem eq_of_near (whole : IsWhole code n) (near : Near code m) : m = n := by
  have step := zpow_two_pos (exponentOf code)
  have unit : (2 : ℚ) ^ exponentOf code ≤ 1 := zpow_le_one_of_nonpos₀ (by norm_num) whole.step_le
  have number : (significandOf code : ℚ) * 2 ^ exponentOf code = n := whole.magnitude
  have gap := gapBelow_le code
  have low := near.low
  have high := near.high
  rw [le_div_iff₀ step] at low
  rw [div_le_iff₀ step] at high
  have below : (m : ℚ) < n + 1 := by nlinarith
  have above : (n : ℚ) < m + 1 := by nlinarith
  have belowNat : m < n + 1 := by exact_mod_cast below
  have aboveNat : n < m + 1 := by exact_mod_cast above
  omega

/-- What is near the code of a whole number is rounded to it. -/
theorem nearestCode_eq {num den : Nat} (whole : IsWhole code n) (denPositive : 0 < den)
    (same : (num / den : ℚ) = n) : nearestCode num den = code := by
  have positive : 0 < num := by
    rw [Nat.pos_iff_ne_zero]
    rintro rfl
    rw [Nat.cast_zero, zero_div] at same
    exact whole.positive.ne (by exact_mod_cast same)
  exact nearestCode_of_near whole.finite positive denPositive (same ▸ whole.near)

/-- **A whole number is rounded to its own code.** -/
theorem ofNat_eq (whole : IsWhole code n) : ofNat n = ⟨false, code⟩ := by
  rw [ofNat, ofRatio, if_neg whole.positive.ne',
    whole.nearestCode_eq Nat.one_pos (by rw [Nat.cast_one, div_one])]

/-- **The ratio of a whole number has no fraction.** -/
theorem ratio_ofNat (whole : IsWhole code n) :
    0 < (ofNat n).ratio.1 ∧ 0 < (ofNat n).ratio.2 ∧
      ((ofNat n).ratio.1 : ℚ) = n * (ofNat n).ratio.2 := by
  obtain ⟨den, value⟩ :
      0 < (ofNat n).ratio.2 ∧ ((ofNat n).ratio.1 : ℚ) = n * (ofNat n).ratio.2 := by
    have number : (significandOf code : ℚ) * 2 ^ exponentOf code = n := whole.magnitude
    rw [whole.ofNat_eq, ratio, ← number]
    simp only
    split
    · next power exponent =>
      rw [exponent, Nat.pow_eq, Int.ofNat_eq_natCast, zpow_natCast]
      refine ⟨Nat.one_pos, ?_⟩
      push_cast
      rw [mul_one]
    · next power exponent =>
      rw [exponent, Nat.pow_eq, zpow_negSucc]
      refine ⟨Nat.pow_pos (by decide), ?_⟩
      push_cast
      field_simp
  have denPositive : (0 : ℚ) < (ofNat n).ratio.2 := by exact_mod_cast den
  have positive : (0 : ℚ) < (ofNat n).ratio.1 :=
    value ▸ mul_pos (by exact_mod_cast whole.positive) denPositive
  exact ⟨by exact_mod_cast positive, den, value⟩

/-! ### The shortest decimal of a whole number -/

/-- The middle of the interval of a whole number is the number. -/
theorem middle_ofCode (whole : IsWhole code n) :
    0 < (Interval.ofCode code).middle ∧ 0 < (Interval.ofCode code).den ∧
      ((Interval.ofCode code).middle / (Interval.ofCode code).den : ℚ) = n := by
  obtain ⟨positive, denPositive, middle⟩ := Interval.middle_ofCode whole.code_ne_zero
  exact ⟨positive, denPositive, middle.trans whole.magnitude⟩

/-- The leading place of a whole number is not behind the point. -/
theorem leadingPlace_nonneg (whole : IsWhole code n) :
    0 ≤ (Interval.ofCode code).leadingPlace := by
  obtain ⟨positive, denPositive, number⟩ := whole.middle_ofCode
  have high := Interval.lt_zpow_leadingPlace positive denPositive
  have one : (10 : ℚ) ^ (0 : Int) ≤ n := by
    rw [zpow_zero]
    exact_mod_cast whole.positive
  rw [number] at high
  have less := (zpow_lt_zpow_iff_right₀ (by norm_num)).mp (one.trans_lt high)
  omega

/-- Down to the last place before the point a grid holds nothing but the number itself. -/
theorem eq_of_candidate (whole : IsWhole code n) {tie : Tie} {k : Nat} {found : Decimal}
    (candidate : (Interval.ofCode code).candidate tie k = some found) :
    found.power = k ∧ found.digits * 10 ^ k = n := by
  obtain ⟨-, denPositive, -⟩ := whole.middle_ofCode
  obtain ⟨below, -, -, -, isOne⟩ := Interval.exists_neighbours denPositive tie k
  have power : found.power = k := by
    rcases isOne found candidate with ⟨rfl, -⟩ | ⟨rfl, -⟩ <;> rfl
  have near : Near code found.value :=
    (Interval.holds_ofCode_iff whole.code_ne_zero found).mp (Interval.holds_of_candidate candidate)
  have value : found.value = (found.digits * 10 ^ k : Nat) := by
    rw [Decimal.value, power, zpow_natCast]
    push_cast
    rfl
  exact ⟨power, whole.eq_of_near (value ▸ near)⟩

/-- The grid of whole numbers has a candidate, the number itself. -/
theorem isSome_candidate (whole : IsWhole code n) (tie : Tie) :
    ((Interval.ofCode code).candidate tie (0 : Nat)).isSome := by
  obtain ⟨-, denPositive, number⟩ := whole.middle_ofCode
  obtain ⟨below, least, greatest, isSome, -⟩ := Interval.exists_neighbours denPositive tie (0 : Nat)
  rw [number, Nat.cast_zero, zpow_zero, div_one] at least greatest
  have same : below = n := by
    have low : below ≤ n := by exact_mod_cast least
    have high : n < below + 1 := by exact_mod_cast greatest
    omega
  refine isSome below (.inl rfl) ((Interval.holds_ofCode_iff whole.code_ne_zero _).mpr ?_)
  rw [same, Nat.cast_zero, Decimal.value_natCast]
  exact whole.near

/-- **The shortest decimal of a whole number has no places behind the point.** -/
theorem exists_shortest_whole (whole : IsWhole code n) (tie : Tie) :
    ∃ k : Nat, (shortest tie code).power = k ∧ (shortest tie code).digits * 10 ^ k = n := by
  obtain ⟨i, found, candidate, none, same⟩ := exists_shortest whole.code_ne_zero tie
  obtain ⟨place, placed⟩ := Int.eq_ofNat_of_zero_le whole.leadingPlace_nonneg
  rw [placed] at candidate none
  have early : i ≤ place := by
    by_contra! late
    have missing := none place late
    have isSome := whole.isSome_candidate tie
    rw [sub_self] at missing
    rw [Nat.cast_zero, missing] at isSome
    cases isSome
  have power : (place : Int) - i = (place - i : Nat) := by omega
  rw [power] at candidate
  obtain ⟨foundPower, foundWhole⟩ := whole.eq_of_candidate candidate
  have nonneg : 0 ≤ (shortest tie code).power := by
    rw [same, foundPower]
    exact Decimal.power_normalize_nonneg _ (Int.natCast_nonneg _)
  have value : (shortest tie code).value = n := by
    rw [same, Decimal.value_normalize, foundPower, zpow_natCast, ← foundWhole]
    push_cast
    rfl
  obtain ⟨k, exponent⟩ := Int.eq_ofNat_of_zero_le nonneg
  rw [Decimal.value, exponent, zpow_natCast] at value
  exact ⟨k, exponent, by exact_mod_cast value⟩

end IsWhole

/-! ### Dividing and writing whole numbers -/

theorem isInfinite_ofNat {n : Nat} (small : n < 2 ^ 53) : (ofNat n).isInfinite = false := by
  rcases Nat.eq_zero_or_pos n with rfl | positive
  · rfl
  · obtain ⟨code, whole⟩ := exists_isWhole positive small
    rw [whole.ofNat_eq, isInfinite, decide_eq_false_iff_not, not_le]
    exact whole.finite

/-- **A multiple divided by its factor is exact.** -/
theorem div_ofNat {k n : Nat} (positive : 0 < n) (factor : 0 < k) (small : k * n < 2 ^ 53) :
    (ofNat (k * n)).div (ofNat k) = ofNat n := by
  obtain ⟨code, whole⟩ := exists_isWhole positive ((Nat.le_mul_of_pos_left n factor).trans_lt small)
  obtain ⟨_, multiple⟩ := exists_isWhole (Nat.mul_pos factor positive) small
  obtain ⟨_, divisor⟩ := exists_isWhole factor ((Nat.le_mul_of_pos_right k positive).trans_lt small)
  obtain ⟨multipleNum, multipleDen, multipleValue⟩ := multiple.ratio_ofNat
  obtain ⟨divisorNum, divisorDen, divisorValue⟩ := divisor.ratio_ofNat
  have quotient : (((ofNat (k * n)).ratio.1 * (ofNat k).ratio.2 : Nat) /
      ((ofNat (k * n)).ratio.2 * (ofNat k).ratio.1 : Nat) : ℚ) = n := by
    have kNonzero : (k : ℚ) ≠ 0 := by exact_mod_cast factor.ne'
    have multipleNonzero : ((ofNat (k * n)).ratio.2 : ℚ) ≠ 0 := by exact_mod_cast multipleDen.ne'
    have divisorNonzero : ((ofNat k).ratio.2 : ℚ) ≠ 0 := by exact_mod_cast divisorDen.ne'
    push_cast
    rw [multipleValue, divisorValue]
    push_cast
    field_simp
  show ofRatio false ((ofNat (k * n)).ratio.1 * (ofNat k).ratio.2)
    ((ofNat (k * n)).ratio.2 * (ofNat k).ratio.1) = _
  rw [ofRatio, if_neg (Nat.mul_pos multipleNum divisorDen).ne',
    whole.nearestCode_eq (Nat.mul_pos multipleDen divisorNum) quotient, whole.ofNat_eq]

/-- **A whole number of at most 53 bits is written digit by digit**, with a fraction that is zero.
-/
theorem scientificBeyond_ofNat {n : Nat} (small : n < 2 ^ 53) :
    ((ofNat n).scientificBeyond).toList = Nat.toDigits 10 n ++ ['.', '0'] := by
  rcases Nat.eq_zero_or_pos n with rfl | positive
  · decide +kernel
  · obtain ⟨code, whole⟩ := exists_isWhole positive small
    obtain ⟨k, power, digits⟩ := whole.exists_shortest_whole .even
    have digitsPositive : 0 < (shortest .even code).digits := by
      rw [Nat.pos_iff_ne_zero]
      intro zero
      rw [zero, zero_mul] at digits
      exact positive.ne digits
    have written : Nat.toDigits 10 n =
        Nat.toDigits 10 (shortest .even code).digits ++ List.replicate k '0' := by
      rw [← digits, toDigits_mul_pow digitsPositive]
    -- Fewer than seventeen digits stand before the point.
    have few : (Nat.toDigits 10 n).length ≤ 16 :=
      (Nat.length_toDigits_le_iff (by decide) (by decide)).mpr (small.trans (by decide))
    rw [written, List.length_append, List.length_replicate] at few
    have some : 0 < (Nat.toDigits 10 (shortest .even code).digits).length :=
      Nat.length_toDigits_pos
    have length : (toString (shortest .even code).digits).length =
        (Nat.toDigits 10 (shortest .even code).digits).length := by
      rw [Nat.toString_eq_repr, ← String.length_toList, Nat.toList_repr]
    rw [scientificBeyond, whole.ofNat_eq]
    simp only [power, length]
    rw [if_pos (by omega), written]
    simp [signText, zeros, Nat.toString_eq_repr, Nat.toList_repr]

end Double

end PagedHtml.Number
