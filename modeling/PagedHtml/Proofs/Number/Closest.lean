/-
**Of the decimals near a number the one it is written as has the fewest digits**, and of these it is
the closest.

The decimals with some number of digits that lie about a number form a grid, and no other decimal
with as few digits lies between two neighbours on it (`IsFloor.beside`). So where a decimal is near
the number, one of the two places of the grid beside the number is near it too, and the search for
the shortest decimal ends at this grid or before.

* `IsShortest`: what the shortest decimal for a number is;
* `isShortest_shortest`: the one that is written is it;
* `IsShortest.value_eq`: there is only one.
-/

import PagedHtml.Proofs.Number.Shortest

namespace PagedHtml.Number

namespace Double

/-- The number of a finite code, its sign aside. -/
def magnitude (code : Nat) : ℚ := significandOf code * 2 ^ exponentOf code

theorem magnitude_div (code : Nat) : magnitude code / 2 ^ exponentOf code = significandOf code :=
  mul_div_cancel_right₀ _ (zpow_two_pos _).ne'

variable {code : Nat} {x y : ℚ}

/-- What lies between a number and something near it above is near it. -/
theorem Near.of_le (near : Near code x) (above : magnitude code ≤ y) (below : y ≤ x) :
    Near code y := by
  have step := zpow_two_pos (exponentOf code)
  have low : (significandOf code : ℚ) ≤ y / 2 ^ exponentOf code := by
    rw [← magnitude_div]
    exact div_le_div_of_nonneg_right above step.le
  have high : y / 2 ^ exponentOf code ≤ x / 2 ^ exponentOf code :=
    div_le_div_of_nonneg_right below step.le
  have gap := le_gapBelow code
  refine ⟨by linarith, high.trans near.high, fun ends => ?_⟩
  rcases ends with same | same
  · linarith
  · exact near.ends (.inr (le_antisymm near.high (same ▸ high)))

/-- What lies between a number and something near it below is near it. -/
theorem Near.of_ge (near : Near code x) (below : y ≤ magnitude code) (above : x ≤ y) :
    Near code y := by
  have step := zpow_two_pos (exponentOf code)
  have high : y / 2 ^ exponentOf code ≤ significandOf code := by
    rw [← magnitude_div]
    exact div_le_div_of_nonneg_right below step.le
  have low : x / 2 ^ exponentOf code ≤ y / 2 ^ exponentOf code :=
    div_le_div_of_nonneg_right above step.le
  refine ⟨near.low.trans low, by linarith, fun ends => ?_⟩
  rcases ends with same | same
  · exact near.ends (.inl (le_antisymm (same ▸ low) near.low))
  · linarith

end Double

open Double (Near significandOf exponentOf gapBelow decimalLength magnitude)

/-- **That a decimal is the shortest for the number of a code**: it is near the number, no decimal
near it has fewer digits, and of those with as many it is the closest; of two at equal distance it
is the greater one. -/
structure IsShortest (code : Nat) (decimal : Decimal) : Prop where
  near : Near code decimal.value
  fewest : ∀ other : Decimal, Near code other.value →
    decimalLength decimal.digits ≤ decimalLength other.digits
  closest : ∀ other : Decimal, Near code other.value →
    decimalLength other.digits = decimalLength decimal.digits →
      |decimal.value - magnitude code| ≤ |other.value - magnitude code| ∧
        (|other.value - magnitude code| = |decimal.value - magnitude code| →
          other.value ≤ decimal.value)

/-- A number has one shortest decimal only. -/
theorem IsShortest.value_eq {code : Nat} {decimal other : Decimal}
    (shortest : IsShortest code decimal) (shortestOther : IsShortest code other) :
    decimal.value = other.value := by
  have length : decimalLength decimal.digits = decimalLength other.digits :=
    le_antisymm (shortest.fewest other shortestOther.near)
      (shortestOther.fewest decimal shortest.near)
  obtain ⟨closer, below⟩ := shortest.closest other shortestOther.near length.symm
  obtain ⟨closerOther, above⟩ := shortestOther.closest decimal shortest.near length
  have distance := le_antisymm closer closerOther
  exact le_antisymm (above distance) (below distance.symm)

/-! ### The grid of the decimals with some digits -/

/-- The next place of a grid. -/
theorem Decimal.value_succ (digits : Nat) (power : Int) :
    value ⟨digits + 1, power⟩ = value ⟨digits, power⟩ + 10 ^ power := by
  simp only [value]
  push_cast
  ring

/-- A positive middle lies below the place before its leading one. -/
theorem Interval.lt_zpow_leadingPlace {interval : Interval} (positive : 0 < interval.middle)
    (denPositive : 0 < interval.den) :
    (interval.middle / interval.den : ℚ) < 10 ^ (interval.leadingPlace + 1) := by
  have den' : (0 : ℚ) < interval.den := by exact_mod_cast denPositive
  rw [leadingPlace]
  generalize inverse_eq : interval.den / interval.middle = inverse
  simp only
  -- Below one the place is told by the whole part of the inverse.
  have scaled (small : interval.middle / interval.den = 0) :
      interval.middle * 10 ^ (decimalLength inverse - 1) ≤ interval.den := by
    have less := (Nat.div_eq_zero_iff.mp small).resolve_left denPositive.ne'
    have inversePositive : 0 < inverse := inverse_eq ▸ Nat.div_pos less.le positive
    calc interval.middle * 10 ^ (decimalLength inverse - 1)
        ≤ interval.middle * inverse :=
          Nat.mul_le_mul_left _ (Double.decimalLength_bounds inversePositive).1
      _ ≤ interval.den := inverse_eq ▸ Nat.mul_div_le interval.den interval.middle
  have length := Double.decimalLength_pos inverse
  split_ifs with small exact_
  · have place : 1 - (decimalLength inverse : Int) + 1 =
        -((decimalLength inverse - 1 : Nat) : Int) + 1 := by
      omega
    have power : (0 : ℚ) < 10 ^ (decimalLength inverse - 1) := by positivity
    have whole : (interval.middle * 10 ^ (decimalLength inverse - 1) : ℚ) ≤ interval.den := by
      exact_mod_cast scaled small
    rw [place, zpow_add_one₀ (by norm_num), zpow_neg, zpow_natCast, inv_mul_eq_div,
      div_lt_div_iff₀ den' power]
    linarith
  · have place : -(decimalLength inverse : Int) + 1 =
        -((decimalLength inverse - 1 : Nat) : Int) := by
      omega
    have strict : interval.middle * 10 ^ (decimalLength inverse - 1) < interval.den := by
      refine (scaled small).lt_of_ne fun same => exact_ ?_
      have power : inverse = 10 ^ (decimalLength inverse - 1) := by
        conv_lhs => rw [← inverse_eq, ← same]
        exact Nat.mul_div_cancel_left _ positive
      exact ⟨by rw [mul_comm, power]; exact same, power⟩
    rw [place, zpow_neg, zpow_natCast, div_lt_iff₀ den', inv_mul_eq_div,
      lt_div_iff₀ (by positivity)]
    exact_mod_cast strict
  · have wholePositive : 0 < interval.middle / interval.den := Nat.pos_of_ne_zero small
    obtain ⟨-, high⟩ := Double.decimalLength_bounds wholePositive
    rw [sub_add_cancel, zpow_natCast]
    calc (interval.middle / interval.den : ℚ)
        < (interval.middle / interval.den : Nat) + 1 := (div_bounds denPositive).2
      _ ≤ (10 : ℚ) ^ decimalLength (interval.middle / interval.den) := by exact_mod_cast high

/-- The power of ten of the grid about a number that has `n` digits behind the leading one. -/
def gridPower (code n : Nat) : Int := (Interval.ofCode code).leadingPlace - n

theorem zpow_gridPower_pos (code n : Nat) : (0 : ℚ) < 10 ^ gridPower code n :=
  zpow_pos (by norm_num) _

/-- **The place of a grid at or just below a number.** -/
structure IsFloor (code n below : Nat) : Prop where
  least : (below : ℚ) ≤ magnitude code / 10 ^ gridPower code n
  greatest : magnitude code / 10 ^ gridPower code n < below + 1

section

variable {code n below : Nat}

theorem zpow_gridPower_add (code n k : Nat) :
    (10 : ℚ) ^ (gridPower code n + k) = 10 ^ k * 10 ^ gridPower code n := by
  rw [zpow_add₀ (by norm_num), zpow_natCast, mul_comm]

/-- A number lies between the powers of ten of its grid. -/
theorem magnitude_bounds (nonzero : code ≠ 0) (n : Nat) :
    10 ^ n * 10 ^ gridPower code n ≤ magnitude code ∧
      magnitude code < 10 ^ (n + 1) * 10 ^ gridPower code n := by
  obtain ⟨positive, denPositive, middle⟩ := Interval.middle_ofCode nonzero
  have low := Interval.zpow_leadingPlace_le positive denPositive
  have high := Interval.lt_zpow_leadingPlace positive denPositive
  rw [middle] at low high
  have first : gridPower code n + n = (Interval.ofCode code).leadingPlace := by
    rw [gridPower]
    omega
  have next : gridPower code n + (n + 1 : Nat) = (Interval.ofCode code).leadingPlace + 1 := by
    rw [gridPower]
    omega
  rw [← zpow_gridPower_add, ← zpow_gridPower_add, first, next]
  exact ⟨low, high⟩

namespace IsFloor

/-- The places of a grid have as many digits as the grid. -/
theorem bounds (nonzero : code ≠ 0) (floor : IsFloor code n below) :
    10 ^ n ≤ below ∧ below + 1 ≤ 10 ^ (n + 1) := by
  obtain ⟨low, high⟩ := magnitude_bounds nonzero n
  rw [← le_div_iff₀ (zpow_gridPower_pos code n)] at low
  rw [← div_lt_iff₀ (zpow_gridPower_pos code n)] at high
  have belowLow : 10 ^ n < below + 1 := by exact_mod_cast low.trans_lt floor.greatest
  have belowHigh : below < 10 ^ (n + 1) := by exact_mod_cast floor.least.trans_lt high
  omega

/-- A number lies between two neighbours on its grid. -/
theorem between (floor : IsFloor code n below) :
    Decimal.value ⟨below, gridPower code n⟩ ≤ magnitude code ∧
      magnitude code < Decimal.value ⟨below, gridPower code n⟩ + 10 ^ gridPower code n := by
  obtain ⟨least, greatest⟩ := floor
  rw [le_div_iff₀ (zpow_gridPower_pos code n)] at least
  rw [div_lt_iff₀ (zpow_gridPower_pos code n), add_mul, one_mul] at greatest
  exact ⟨least, greatest⟩

/-- **No decimal with as few digits as a grid lies between two neighbours on it.** -/
theorem beside (nonzero : code ≠ 0) (floor : IsFloor code n below) (other : Decimal)
    (few : decimalLength other.digits ≤ n + 1) :
    other.value ≤ Decimal.value ⟨below, gridPower code n⟩ ∨
      Decimal.value ⟨below + 1, gridPower code n⟩ ≤ other.value := by
  have step := zpow_gridPower_pos code n
  obtain ⟨low, high⟩ := floor.bounds nonzero
  rcases Nat.eq_zero_or_pos other.digits with zero | positive
  · left
    rw [Decimal.value, zero, Nat.cast_zero, zero_mul]
    exact mul_nonneg (Nat.cast_nonneg below) step.le
  · by_contra! between
    obtain ⟨above, under⟩ := between
    obtain ⟨least, greatest⟩ := Double.leading_bounds positive
    -- Strictly between the neighbours the leading digit has the place of the grid's.
    have lowest : (10 : ℚ) ^ (gridPower code n + n) < other.value := by
      refine lt_of_le_of_lt ?_ above
      rw [zpow_gridPower_add]
      exact mul_le_mul_of_nonneg_right (by exact_mod_cast low) step.le
    have highest : other.value < (10 : ℚ) ^ (gridPower code n + (n + 1 : Nat)) := by
      refine lt_of_lt_of_le under ?_
      rw [zpow_gridPower_add]
      exact mul_le_mul_of_nonneg_right (by exact_mod_cast high) step.le
    have first : gridPower code n + n < decimalLength other.digits + other.power :=
      (zpow_lt_zpow_iff_right₀ (by norm_num)).mp (lowest.trans greatest)
    have last : (decimalLength other.digits : Int) + other.power - 1 <
        gridPower code n + (n + 1 : Nat) :=
      (zpow_lt_zpow_iff_right₀ (by norm_num)).mp (least.trans_lt highest)
    obtain ⟨k, power⟩ : ∃ k : Nat, other.power = gridPower code n + k :=
      ⟨(other.power - gridPower code n).toNat, by omega⟩
    rw [Decimal.value, Decimal.value, power, zpow_gridPower_add, ← mul_assoc,
      mul_lt_mul_iff_of_pos_right step] at above under
    have after : below < other.digits * 10 ^ k := by exact_mod_cast above
    have before : other.digits * 10 ^ k < below + 1 := by exact_mod_cast under
    omega

/-- **Where a decimal with as few digits as a grid is near a number**, so is one of the two places
of the grid beside the number, which lies between them. -/
theorem near_neighbour (nonzero : code ≠ 0) (floor : IsFloor code n below) {other : Decimal}
    (near : Near code other.value) (few : decimalLength other.digits ≤ n + 1) :
    Near code (Decimal.value ⟨below, gridPower code n⟩) ∧
        other.value ≤ Decimal.value ⟨below, gridPower code n⟩ ∨
      Near code (Decimal.value ⟨below + 1, gridPower code n⟩) ∧
        Decimal.value ⟨below + 1, gridPower code n⟩ ≤ other.value := by
  obtain ⟨least, greatest⟩ := floor.between
  rw [← Decimal.value_succ] at greatest
  rcases floor.beside nonzero other few with beneath | beyond
  · exact .inl ⟨near.of_ge least beneath, beneath⟩
  · exact .inr ⟨near.of_le greatest.le beyond, beyond⟩

end IsFloor

/-! ### The shortest decimal -/

/-- The candidate of a grid is one of the places beside the number. -/
theorem exists_floor (nonzero : code ≠ 0) (n : Nat) :
    ∃ below : Nat, IsFloor code n below ∧
      (∀ digits, digits = below ∨ digits = below + 1 →
        Near code (Decimal.value ⟨digits, gridPower code n⟩) →
          ((Interval.ofCode code).candidate .away (gridPower code n)).isSome) ∧
      ∀ found, (Interval.ofCode code).candidate .away (gridPower code n) = some found →
        found = ⟨below, gridPower code n⟩ ∧
            (Near code (Decimal.value ⟨below + 1, gridPower code n⟩) →
              magnitude code / 10 ^ gridPower code n < below + 1 / 2) ∨
          found = ⟨below + 1, gridPower code n⟩ ∧
            (Near code (Decimal.value ⟨below, gridPower code n⟩) →
              below + 1 / 2 ≤ magnitude code / 10 ^ gridPower code n) := by
  obtain ⟨-, denPositive, middle⟩ := Interval.middle_ofCode nonzero
  have number : ((Interval.ofCode code).middle / (Interval.ofCode code).den : ℚ) =
      magnitude code := middle
  obtain ⟨below, least, greatest, isSome, found⟩ :=
    Interval.exists_neighbours denPositive .away (gridPower code n)
  simp only [number, Interval.holds_ofCode_iff nonzero, forall_const] at *
  exact ⟨below, ⟨least, greatest⟩, isSome, found⟩

/-- A grid has a candidate if a decimal with as few digits is near the number. -/
theorem isSome_candidate_of_near (nonzero : code ≠ 0) {other : Decimal}
    (near : Near code other.value) (few : decimalLength other.digits ≤ n + 1) :
    ((Interval.ofCode code).candidate .away (gridPower code n)).isSome := by
  obtain ⟨below, floor, isSome, -⟩ := exists_floor nonzero n
  rcases floor.near_neighbour nonzero near few with ⟨lower, -⟩ | ⟨upper, -⟩
  · exact isSome below (.inl rfl) lower
  · exact isSome (below + 1) (.inr rfl) upper

/-- What is below a number and closer than others, or above them. -/
theorem closer_below {x a y : ℚ} (below : a ≤ x) (farther : y ≤ a ∨ 2 * x < a + y) :
    |a - x| ≤ |y - x| ∧ (|y - x| = |a - x| → y ≤ a) := by
  rw [abs_of_nonpos (sub_nonpos.mpr below)]
  rcases farther with beneath | beyond
  · rw [abs_of_nonpos (by linarith)]
    exact ⟨by linarith, fun _ => beneath⟩
  · rw [abs_of_nonneg (by linarith)]
    exact ⟨by linarith, fun same => by linarith⟩

/-- What is above a number and no farther than others, or below them. -/
theorem closer_above {x a y : ℚ} (above : x ≤ a) (farther : a ≤ y ∨ a + y ≤ 2 * x) :
    |a - x| ≤ |y - x| ∧ (|y - x| = |a - x| → y ≤ a) := by
  rw [abs_of_nonneg (sub_nonneg.mpr above)]
  rcases farther with beyond | beneath
  · rw [abs_of_nonneg (by linarith)]
    exact ⟨by linarith, fun same => by linarith⟩
  · rw [abs_of_nonpos (by linarith)]
    exact ⟨by linarith, fun _ => by linarith⟩

/-- **The candidate of a grid is the closest** of the decimals near the number with as few digits.
-/
theorem closest_candidate (nonzero : code ≠ 0) {found : Decimal}
    (candidate : (Interval.ofCode code).candidate .away (gridPower code n) = some found) :
    found.digits ≤ 10 ^ (n + 1) ∧
      ∀ other : Decimal, Near code other.value → decimalLength other.digits ≤ n + 1 →
        |found.value - magnitude code| ≤ |other.value - magnitude code| ∧
          (|other.value - magnitude code| = |found.value - magnitude code| →
            other.value ≤ found.value) := by
  obtain ⟨below, floor, -, isOne⟩ := exists_floor nonzero n
  have one := isOne found candidate
  obtain ⟨-, high⟩ := floor.bounds nonzero
  obtain ⟨least, greatest⟩ := floor.between
  have step := zpow_gridPower_pos code n
  have lower : Decimal.value ⟨below, gridPower code n⟩ = below * 10 ^ gridPower code n := rfl
  simp only [div_lt_iff₀ step, le_div_iff₀ step, add_mul] at one
  rcases one with ⟨rfl, closer⟩ | ⟨rfl, closer⟩
  · refine ⟨(Nat.le_succ below).trans high, fun other near few => closer_below least ?_⟩
    rcases floor.near_neighbour nonzero near few with ⟨-, beneath⟩ | ⟨nearNext, beyond⟩
    · exact .inl beneath
    · right
      have half := closer nearNext
      rw [Decimal.value_succ] at beyond
      linarith
  · rw [← Decimal.value_succ] at greatest
    refine ⟨high, fun other near few => closer_above greatest.le ?_⟩
    rcases floor.near_neighbour nonzero near few with ⟨nearBelow, beneath⟩ | ⟨-, beyond⟩
    · right
      have half := closer nearBelow
      rw [Decimal.value_succ]
      linarith
    · exact .inl beyond

end

/-- **The decimal that a number is written as is the shortest**, and the closest of the shortest.
-/
theorem isShortest_shortest {code : Nat} (nonzero : code ≠ 0) :
    IsShortest code (shortest .away code) := by
  obtain ⟨n, found, candidate, none, same⟩ := exists_shortest nonzero .away
  obtain ⟨few, closest⟩ := closest_candidate nonzero candidate
  have written : (shortest .away code).value = found.value := by
    rw [same, Decimal.value_normalize]
    rfl
  have short : decimalLength (shortest .away code).digits ≤ n + 1 := by
    rw [same, decimalLength, Nat.length_toDigits_le_iff (by decide) (Nat.succ_pos n)]
    exact Decimal.digits_normalize_lt few found.power
  refine ⟨near_shortest nonzero .away, fun other near => ?_, fun other near length => ?_⟩
  · by_contra! longer
    have length := Double.decimalLength_pos other.digits
    obtain ⟨m, exactly⟩ : ∃ m, decimalLength other.digits = m + 1 :=
      ⟨_, (Nat.sub_add_cancel length).symm⟩
    have isSome := isSome_candidate_of_near nonzero near exactly.le
    rw [gridPower, none m (by omega)] at isSome
    cases isSome
  · rw [written]
    exact closest other near (length.trans_le short)

end PagedHtml.Number
