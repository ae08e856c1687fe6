/-
**Whole numbers among literals.**

Characters write a whole number as a sign, perhaps, and digits (`WritesInteger`). A whole number of
64 bits is written as it is. Every other one is written as the shortest decimal for the finite
number nearest to it, which is the number itself only if it is the shortest decimal for some finite
number (`IsShortestWhole`).

* `Literal.take_integer`: a whole number is taken as a literal of its sign and its digits;
* `Literal.IsComplete.integer?_eq_some_iff`: a literal denotes a whole number of 64 bits just if it
  writes one;
* `Double.writesInteger_plain_iff`: when a finite number is written as a given whole number.
-/

import PagedHtml.Proofs.Number.Closest
import PagedHtml.Proofs.Number.Complete

namespace PagedHtml.Number

open Double (Near infinityCode)

/-- The whole number with some sign and some magnitude. -/
def signed (sign : Option Char) (n : Nat) : Int := if sign = some '-' then -n else n

/-- **That characters write a whole number**: perhaps a sign, and digits. -/
def WritesInteger (chars : List Char) (i : Int) : Prop :=
  ∃ sign digits, Literal.IsSigned sign digits ∧ chars = sign.toList ++ digits ∧
    i = signed sign (Nat.ofDigitChars 10 digits 0)

/-- **That a natural number is the shortest decimal for some finite number.** -/
def IsShortestWhole (n : Nat) : Prop :=
  ∃ code decimal, 0 < code ∧ code < infinityCode ∧ IsShortest code decimal ∧ decimal.value = n

theorem natAbs_signed (sign : Option Char) (n : Nat) : (signed sign n).natAbs = n := by
  rw [signed]
  split <;> omega

theorem signed_natAbs (i : Int) : signed (if i < 0 then some '-' else none) i.natAbs = i := by
  by_cases negative : i < 0
  · rw [if_pos negative, signed, if_pos rfl]
    omega
  · rw [if_neg negative, signed, if_neg nofun]
    omega

theorem signed_minus (sign : Option Char) (n : Nat) :
    signed (if decide (sign = some '-') then some '-' else none) n = signed sign n := by
  by_cases minus : sign = some '-'
  · rw [minus]
    rfl
  · simp [signed, minus]

namespace Literal

variable {l : Literal} {sign : Option Char} {digits rest : List Char} {i : Int}

/-- **A whole number is taken as its sign and its digits**, if it is taken to its end. -/
theorem take_integer (isSigned : IsSigned sign digits)
    (whole : (take (sign.toList ++ digits ++ rest)).2 = rest) :
    take (sign.toList ++ digits ++ rest) = (⟨sign, digits, [], none⟩, rest) := by
  have same := take_text (sign.toList ++ digits ++ rest)
  rw [whole] at same
  have text := List.append_cancel_right same
  refine Prod.ext ?_ whole
  rw [List.append_assoc] at text ⊢
  simp only [take, takeSign_append_digits isSigned,
    takeWhile_isDigit_append isSigned.isDigit] at text ⊢
  simp only [Literal.text, List.append_assoc, List.append_cancel_left_eq,
    List.append_right_eq_self, List.append_eq_nil_iff] at text
  obtain ⟨noDigits, noFraction, noExponent⟩ := text
  rw [noDigits, List.append_nil, Literal.mk.injEq]
  exact ⟨rfl, rfl, fractionText_eq_nil_iff.mp noFraction, exponentText_eq_nil_iff.mp noExponent⟩

/-- The sign and the digits of a whole number are told by its text. -/
theorem IsSigned.eq_of_append_eq (isSigned : IsSigned sign digits) {other : Option Char}
    {digitsOther : List Char} (isSignedOther : IsSigned other digitsOther)
    (same : sign.toList ++ digits = other.toList ++ digitsOther) :
    sign = other ∧ digits = digitsOther := by
  have first := takeSign_append_digits isSigned []
  have second := takeSign_append_digits isSignedOther []
  rw [List.append_nil] at first second
  rw [same, second] at first
  obtain ⟨rfl, rfl⟩ := Prod.mk.inj first
  exact ⟨rfl, rfl⟩

/-- The characters of a whole number. -/
theorem IsSigned.mem (isSigned : IsSigned sign digits) {c : Char}
    (member : c ∈ sign.toList ++ digits) : (c = '+' ∨ c = '-') ∨ c.isDigit = true :=
  (List.mem_append.mp member).imp (fun inside => isSigned.isSign c (Option.mem_toList.mp inside))
    (isSigned.isDigit c)

/-- Characters write one whole number only. -/
theorem writesInteger_unique {chars : List Char} {j : Int} (writes : WritesInteger chars i)
    (writesOther : WritesInteger chars j) : i = j := by
  obtain ⟨sign, digits, isSigned, rfl, rfl⟩ := writes
  obtain ⟨other, digitsOther, isSignedOther, same, rfl⟩ := writesOther
  obtain ⟨rfl, rfl⟩ := isSigned.eq_of_append_eq isSignedOther same
  rfl

/-- **The whole number that a complete literal writes**, if it has neither fraction nor exponent. -/
theorem IsComplete.writesInteger_text_iff (complete : l.IsComplete) :
    WritesInteger l.text i ↔
      l.fraction = [] ∧ l.exponent = none ∧ i = signed l.sign (digitsValue l.whole) := by
  have bare (fraction : l.fraction = []) (exponent : l.exponent = none) :
      IsSigned l.sign l.whole ∧ l.text = l.sign.toList ++ l.whole :=
    ⟨⟨complete.isSign, complete.hasDigit.resolve_right (absurd fraction), complete.isDigit_whole⟩,
      by simp [text, fraction, exponent, fractionText]⟩
  rw [digitsValue_eq]
  constructor
  · rintro ⟨sign, digits, isSigned, same, rfl⟩
    have none : l.fraction = [] := by
      by_contra some
      obtain ⟨d, more, fraction⟩ := List.exists_cons_of_ne_nil some
      have point : '.' ∈ sign.toList ++ digits := by
        rw [← same, text_eq, fraction]
        simp [fractionText]
      exact absurd (isSigned.mem point) (by decide)
    have bareExponent : l.exponent = Option.none := by
      by_contra some
      obtain ⟨e, exponent⟩ := Option.ne_none_iff_exists'.mp some
      have mark : e.mark ∈ sign.toList ++ digits := by
        rw [← same, text_eq, exponent]
        simp [exponentText, Exponent.text]
      rcases (complete.exponent e exponent).isMark with letter | letter <;> rw [letter] at mark <;>
        exact absurd (isSigned.mem mark) (by decide)
    obtain ⟨isSignedHere, written⟩ := bare none bareExponent
    obtain ⟨rfl, rfl⟩ := isSignedHere.eq_of_append_eq isSigned (written.symm.trans same)
    exact ⟨none, bareExponent, rfl⟩
  · rintro ⟨fraction, exponent, rfl⟩
    obtain ⟨isSigned, written⟩ := bare fraction exponent
    exact ⟨l.sign, l.whole, isSigned, written, rfl⟩

/-- **When a complete literal denotes a whole number of 64 bits**: if it writes one. -/
theorem IsComplete.integer?_eq_some_iff (complete : l.IsComplete) :
    l.integer? = some i ↔
      WritesInteger l.text i ∧ -0x8000000000000000 ≤ i ∧ i < 0x8000000000000000 := by
  have magnitude : (if l.sign = some '-' then -(digitsValue l.whole : Int)
      else digitsValue l.whole) = signed l.sign (digitsValue l.whole) := rfl
  rw [complete.writesInteger_text_iff, integer?]
  simp only [magnitude, Option.ite_none_right_eq_some, Option.some.injEq, Bool.and_eq_true,
    List.isEmpty_iff, Option.isNone_iff_eq_none]
  constructor
  · rintro ⟨⟨fraction, exponent⟩, range, rfl⟩
    exact ⟨⟨fraction, exponent, rfl⟩, range⟩
  · rintro ⟨⟨fraction, exponent, rfl⟩, range⟩
    exact ⟨⟨fraction, exponent⟩, range, rfl⟩

/-- **The whole number that a positional literal writes**, if it has no fraction. -/
theorem writesInteger_text_iff (positional : l.IsPositional) :
    WritesInteger l.text i ↔ l.fraction = [] ∧ i = signed l.sign (digitsValue l.whole) := by
  rw [positional.isComplete.writesInteger_text_iff, and_iff_right positional.exponent]

/-- A whole number is written as itself. -/
theorem writesInteger_ofInt (i : Int) : WritesInteger (toString i).toList i := by
  rw [← text_ofInt, writesInteger_text_iff (isPositional_ofInt i)]
  refine ⟨rfl, ?_⟩
  rw [ofInt, digitsValue_toDigits, signed_natAbs]

end Literal

/-! ### Finite numbers -/

/-- A whole number as a decimal. -/
theorem Decimal.value_natCast (n : Nat) : value ⟨n, 0⟩ = n := by
  rw [value, zpow_zero, mul_one]

/-- A whole number does not become shorter by places behind the point. -/
theorem IsShortest.power_nonneg {code n : Nat} {decimal : Decimal} (positive : 0 < n)
    (shortest : IsShortest code decimal) (whole : decimal.value = n) : 0 ≤ decimal.power := by
  by_contra! negative
  obtain ⟨k, power⟩ := Int.eq_negSucc_of_lt_zero negative
  have scale : (10 : ℚ) ^ (k + 1) ≠ 0 := by positivity
  have digits : decimal.digits = n * 10 ^ (k + 1) := by
    rw [Decimal.value, power, zpow_negSucc, ← div_eq_mul_inv, div_eq_iff scale] at whole
    exact_mod_cast whole
  have near : Near code (Decimal.value ⟨n, 0⟩) := by
    rw [Decimal.value_natCast, ← whole]
    exact shortest.near
  have fewest : Double.decimalLength decimal.digits ≤ Double.decimalLength n :=
    shortest.fewest ⟨n, 0⟩ near
  rw [digits, Double.decimalLength_mul_pow positive] at fewest
  omega

namespace Double

variable {d : Double} {i : Int}

/-- What is written as a word writes no whole number. -/
theorem not_writesInteger_plain (infinite : d.isInfinite = true) :
    ¬ WritesInteger d.plain.toList i := by
  rintro ⟨sign, digits, isSigned, same, -⟩
  have letter : 'N' ∈ d.plain.toList ∨ 'n' ∈ d.plain.toList := by
    rw [plain, if_pos infinite]
    split
    · exact .inl (by decide)
    · exact .inr (by simp)
  rw [same] at letter
  rcases letter with member | member
  · exact absurd (isSigned.mem member) (by decide)
  · exact absurd (isSigned.mem member) (by decide)

/-- **When a finite number is written as a whole number**: if the power of ten of its shortest
decimal is not negative. -/
theorem writesInteger_plain_iff (finite : d.isInfinite = false) :
    WritesInteger d.plain.toList i ↔
      ∃ k : Nat, (shortest .away d.code).power = k ∧
        i = signed (if d.negative then some '-' else none)
          ((shortest .away d.code).digits * 10 ^ k) := by
  rw [← Literal.text_ofDouble finite,
    Literal.writesInteger_text_iff (Literal.isPositional_ofDouble d), Literal.ofDouble]
  simp only
  cases (shortest .away d.code).power with
  | ofNat k =>
    simp only [digitsValue_append_zeros, digitsValue_toDigits, true_and, Int.ofNat_eq_natCast,
      Nat.cast_inj, exists_eq_left']
  | negSucc k =>
    simp only [reduceCtorEq, false_and, exists_false, iff_false, not_and]
    intro nothing
    have length := congrArg List.length nothing
    simp only [List.length_drop, List.length_append, List.length_replicate, List.length_nil]
      at length
    omega

/-- **A whole number beyond 64 bits is written as itself** just if it is the shortest decimal for
some finite number. -/
theorem writesInteger_ofDecimal_iff {n : Nat} (positive : 0 < n) (sign : Option Char) :
    WritesInteger (ofDecimal (sign = some '-') n 0).plain.toList (signed sign n) ↔
      IsShortestWhole n := by
  constructor
  · intro writes
    generalize number : ofDecimal (sign = some '-') n 0 = d at writes
    cases infinite : d.isInfinite with
    | true => exact absurd writes (not_writesInteger_plain infinite)
    | false =>
      obtain ⟨k, power, same⟩ := (writesInteger_plain_iff infinite).mp writes
      have digits : n = (shortest .away d.code).digits * 10 ^ k := by
        rw [← natAbs_signed sign n, same, natAbs_signed]
      have nonzero : d.code ≠ 0 := by
        intro zero
        rw [zero, shortest, if_pos rfl, Nat.zero_mul] at digits
        exact positive.ne' digits
      rw [isInfinite, decide_eq_false_iff_not, not_le] at infinite
      refine ⟨d.code, shortest .away d.code, Nat.pos_of_ne_zero nonzero, infinite,
        isShortest_shortest nonzero, ?_⟩
      rw [digits, Decimal.value, power, zpow_natCast]
      push_cast
      rfl
  · rintro ⟨code, decimal, nonzero, finite, isShortest, whole⟩
    have near : Near code (Decimal.value ⟨n, 0⟩) := by
      rw [Decimal.value_natCast, ← whole]
      exact isShortest.near
    have number : ofDecimal (sign = some '-') n 0 = ⟨sign = some '-', code⟩ :=
      ofDecimal_of_near nonzero.ne' finite near _
    have written := isShortest_shortest nonzero.ne'
    have value := (written.value_eq isShortest).trans whole
    obtain ⟨k, power⟩ := Int.eq_ofNat_of_zero_le (written.power_nonneg positive value)
    have isFinite : (Double.mk (sign = some '-') code).isInfinite = false := by
      rw [isInfinite, decide_eq_false_iff_not, not_le]
      exact finite
    rw [number, writesInteger_plain_iff isFinite]
    refine ⟨k, power, ?_⟩
    rw [Decimal.value, power, zpow_natCast] at value
    rw [signed_minus]
    congr 1
    exact_mod_cast value.symm

end Double

end PagedHtml.Number
