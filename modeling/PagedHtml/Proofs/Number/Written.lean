/-
**Numbers as they are written, read as literals again.**

Numbers are written in positional form: digits, perhaps with a minus sign in front and a point among
them, and no exponent (`Literal.IsPositional`). `Literal.ofInt` and `Literal.ofDouble` are the
literals that whole numbers and finite numbers are written as.

* `Literal.rest_take_text_iff`: a positional literal is taken just as it stands if what follows does
  not go on with it (`Literal.EndsBefore`);
* `Literal.integer?_ofInt`: a whole number of 64 bits is read back from its text;
* `Literal.value_ofDouble`: the text of a finite number denotes the shortest decimal for it.
-/

import PagedHtml.Number.Literal
import PagedHtml.Number.Shortest
import Mathlib.Tactic.Positivity
import Mathlib.Tactic.Ring

namespace PagedHtml.Number

/-! ### Digits -/

theorem digitsValue_eq (digits : List Char) : digitsValue digits = Nat.ofDigitChars 10 digits 0 :=
  Nat.ofDigitChars_eq_foldl.symm

theorem digitsValue_toDigits (n : Nat) : digitsValue (Nat.toDigits 10 n) = n := by
  rw [digitsValue_eq, Nat.ofDigitChars_ten_toDigits]

theorem digitsValue_append_zeros (digits : List Char) (n : Nat) :
    digitsValue (digits ++ List.replicate n '0') = digitsValue digits * 10 ^ n := by
  rw [digitsValue_eq, digitsValue_eq, Nat.ofDigitChars_append, Nat.ofDigitChars_replicate_zero,
    Nat.mul_comm]

theorem digitsValue_zeros_append (digits : List Char) (n : Nat) :
    digitsValue (List.replicate n '0' ++ digits) = digitsValue digits := by
  rw [digitsValue_eq, digitsValue_eq, Nat.ofDigitChars_append, Nat.ofDigitChars_replicate_zero,
    Nat.mul_zero]

theorem isDigit_of_mem_toDigits {n : Nat} {c : Char} (member : c ∈ Nat.toDigits 10 n) :
    c.isDigit = true :=
  Nat.isDigit_of_mem_toDigits (by decide) (by decide) member

theorem isDigit_of_mem_zeros {n : Nat} {c : Char} (member : c ∈ List.replicate n '0') :
    c.isDigit = true := by
  rw [List.eq_of_mem_replicate member]
  decide

namespace Double

/-- **The number of decimal digits** says between which powers of ten a number lies. -/
theorem decimalLength_eq_iff {n k : Nat} (positive : 0 < n) :
    decimalLength n = k + 1 ↔ 10 ^ k ≤ n ∧ n < 10 ^ (k + 1) := by
  have atMost (j : Nat) (some : 0 < j) : decimalLength n ≤ j ↔ n < 10 ^ j :=
    Nat.length_toDigits_le_iff (by decide) some
  have below : decimalLength n ≤ k ↔ n < 10 ^ k := by
    cases k with
    | zero =>
      have nonempty : 0 < decimalLength n := Nat.length_toDigits_pos
      rw [pow_zero]
      omega
    | succ k => exact atMost (k + 1) (Nat.succ_pos k)
  rw [← atMost (k + 1) (Nat.succ_pos k), ← not_lt, ← below]
  omega

theorem decimalLength_pos (n : Nat) : 0 < decimalLength n := Nat.length_toDigits_pos

/-- A positive number lies between the powers of ten that its digits say. -/
theorem decimalLength_bounds {n : Nat} (positive : 0 < n) :
    10 ^ (decimalLength n - 1) ≤ n ∧ n < 10 ^ decimalLength n := by
  have length : decimalLength n - 1 + 1 = decimalLength n :=
    Nat.sub_add_cancel (decimalLength_pos n)
  have bounds := (decimalLength_eq_iff (k := decimalLength n - 1) positive).mp length.symm
  rwa [length] at bounds

theorem decimalLength_mul_pow {n : Nat} (positive : 0 < n) (k : Nat) :
    decimalLength (n * 10 ^ k) = decimalLength n + k := by
  have length := decimalLength_pos n
  obtain ⟨low, high⟩ := decimalLength_bounds positive
  have scale : 0 < 10 ^ k := by positivity
  have split : decimalLength n + k = decimalLength n - 1 + k + 1 := by omega
  rw [split, decimalLength_eq_iff (by positivity)]
  constructor
  · rw [pow_add]
    exact Nat.mul_le_mul_right _ low
  · rw [← split, pow_add]
    exact Nat.mul_lt_mul_of_pos_right high scale

/-- The magnitude that a decimal is read as does not depend on its sign. -/
theorem ofDecimal_eq (negative : Bool) (digits : Nat) (power : Int) :
    ofDecimal negative digits power = ⟨negative, (ofDecimal false digits power).code⟩ := by
  simp only [ofDecimal]
  split_ifs
  · rfl
  · rfl
  · cases power <;> rfl

/-- Zeros behind the digits are as good as a power of ten. -/
theorem ofDecimal_mul_pow (negative : Bool) (n k : Nat) :
    ofDecimal negative (n * 10 ^ k) 0 = ofDecimal negative n k := by
  rcases Nat.eq_zero_or_pos n with rfl | positive
  · simp [ofDecimal]
  · have length := decimalLength_mul_pow positive k
    have scale : 0 < 10 ^ k := by positivity
    have nonzero : n * 10 ^ k ≠ 0 := by positivity
    have zero : ((decimalLength (n * 10 ^ k) : Nat) : Int) + 0 = (decimalLength n : Int) + k := by
      rw [length]
      push_cast
      ring
    simp only [ofDecimal, zero, nonzero, positive.ne', false_or]
    split
    · rfl
    · split
      · rfl
      · show ofRatio negative (n * 10 ^ k * Nat.pow 10 0) 1 = ofRatio negative (n * Nat.pow 10 k) 1
        rw [Nat.pow_eq, Nat.pow_eq, pow_zero, mul_one]

end Double

/-! ### Reading before other text -/

namespace Literal

/-- A literal in positional form: a digit at least before the point, no plus sign and no exponent.
-/
structure IsPositional (l : Literal) : Prop where
  sign : ∀ c ∈ l.sign, c = '-'
  whole_ne_nil : l.whole ≠ []
  isDigit_whole : ∀ c ∈ l.whole, c.isDigit = true
  isDigit_fraction : ∀ c ∈ l.fraction, c.isDigit = true
  exponent : l.exponent = none

/-- **That what follows a literal does not go on with it**: not with a digit, not with a fraction if
it has none, and not with an exponent. -/
def EndsBefore (l : Literal) (rest : List Char) : Prop :=
  startsWithDigit rest = false ∧ (l.fraction = [] → (takeFraction rest).1 = []) ∧
    (takeExponent rest).1 = none

/-- Digits, perhaps behind a sign. -/
structure IsSigned (sign : Option Char) (digits : List Char) : Prop where
  isSign : ∀ c ∈ sign, c = '+' ∨ c = '-'
  ne_nil : digits ≠ []
  isDigit : ∀ c ∈ digits, c.isDigit = true

variable {l : Literal} {rest : List Char}

theorem IsPositional.isSigned (positional : l.IsPositional) : IsSigned l.sign l.whole where
  isSign c member := .inr (positional.sign c member)
  ne_nil := positional.whole_ne_nil
  isDigit := positional.isDigit_whole

theorem takeSign_append_unsigned {sign : Option Char} (isSign : ∀ c ∈ sign, c = '+' ∨ c = '-')
    (unsigned : ∀ c ∈ rest.head?, c ≠ '+' ∧ c ≠ '-') :
    takeSign (sign.toList ++ rest) = (sign, rest) := by
  cases sign with
  | some c => rcases isSign c rfl with rfl | rfl <;> rfl
  | none =>
    cases rest with
    | nil => rfl
    | cons d more =>
      obtain ⟨plus, minus⟩ := unsigned d rfl
      exact if_neg (by simp [plus, minus])

/-- No digit is a sign. -/
theorem ne_sign_of_isDigit {c : Char} (digit : c.isDigit = true) : c ≠ '+' ∧ c ≠ '-' := by
  constructor <;> rintro rfl <;> exact absurd digit (by decide)

theorem takeSign_append_digits {sign : Option Char} {digits : List Char}
    (isSigned : IsSigned sign digits) (rest : List Char) :
    takeSign (sign.toList ++ (digits ++ rest)) = (sign, digits ++ rest) := by
  refine takeSign_append_unsigned isSigned.isSign fun c member => ?_
  obtain ⟨d, more, digits⟩ := List.exists_cons_of_ne_nil isSigned.ne_nil
  obtain rfl : d = c := by simpa [digits] using member
  exact ne_sign_of_isDigit (isSigned.isDigit d (digits ▸ List.mem_cons_self))

theorem takeWhile_isDigit_append {digits : List Char}
    (isDigit : ∀ c ∈ digits, c.isDigit = true) (rest : List Char) :
    (digits ++ rest).takeWhile Char.isDigit = digits ++ rest.takeWhile Char.isDigit :=
  List.takeWhile_append_of_pos isDigit

theorem dropWhile_isDigit_append {digits : List Char}
    (isDigit : ∀ c ∈ digits, c.isDigit = true) (rest : List Char) :
    (digits ++ rest).dropWhile Char.isDigit = rest.dropWhile Char.isDigit :=
  List.dropWhile_append_of_pos isDigit

theorem takeFraction_append_digits {fraction : List Char} (nonempty : fraction ≠ [])
    (isDigit : ∀ c ∈ fraction, c.isDigit = true) (rest : List Char) :
    takeFraction (fractionText fraction ++ rest) =
      (fraction ++ rest.takeWhile Char.isDigit, rest.dropWhile Char.isDigit) := by
  cases fraction with
  | nil => exact absurd rfl nonempty
  | cons d more =>
    have digit : startsWithDigit (d :: more ++ rest) = true := isDigit d List.mem_cons_self
    show takeFraction ('.' :: (d :: more ++ rest)) = _
    rw [takeFraction, if_pos (by rw [digit]; rfl), takeWhile_isDigit_append isDigit,
      dropWhile_isDigit_append isDigit]

/-- Reading a positional literal: what is taken of its text, and what of the text behind it. -/
theorem take_text_append (positional : l.IsPositional) (rest : List Char) :
    take (l.text ++ rest) =
      let digits := rest.takeWhile Char.isDigit
      let behind := rest.dropWhile Char.isDigit
      if l.fraction = [] then
        let fraction := takeFraction behind
        let exponent := takeExponent fraction.2
        (⟨l.sign, l.whole ++ digits, fraction.1, exponent.1⟩, exponent.2)
      else
        let exponent := takeExponent behind
        (⟨l.sign, l.whole, l.fraction ++ digits, exponent.1⟩, exponent.2) := by
  have isSigned := positional.isSigned
  obtain ⟨-, -, whole, fraction, exponent⟩ := positional
  have split : l.text ++ rest =
      l.sign.toList ++ (l.whole ++ (fractionText l.fraction ++ rest)) := by
    simp [text, exponent]
  simp only [take, split, takeSign_append_digits isSigned,
    takeWhile_isDigit_append whole, dropWhile_isDigit_append whole]
  split
  · next none =>
    rw [none]
    rfl
  · next some =>
    have stops : (fractionText l.fraction ++ rest).takeWhile Char.isDigit = [] ∧
        (fractionText l.fraction ++ rest).dropWhile Char.isDigit =
          fractionText l.fraction ++ rest := by
      cases digits : l.fraction with
      | nil => exact absurd digits some
      | cons d more => exact ⟨rfl, rfl⟩
    rw [stops.1, stops.2, takeFraction_append_digits some fraction, List.append_nil]

theorem takeFraction_suffix (chars : List Char) : (takeFraction chars).2 <:+ chars :=
  ⟨_, takeFraction_text chars⟩

theorem takeExponent_suffix (chars : List Char) : (takeExponent chars).2 <:+ chars :=
  ⟨_, takeExponent_text chars⟩

theorem takeFraction_of_nil {chars : List Char} (nothing : (takeFraction chars).1 = []) :
    takeFraction chars = ([], chars) := by
  have whole := takeFraction_text chars
  rw [nothing] at whole
  exact Prod.ext nothing whole

theorem takeExponent_of_none {chars : List Char} (nothing : (takeExponent chars).1 = none) :
    takeExponent chars = (none, chars) := by
  have whole := takeExponent_text chars
  rw [nothing] at whole
  exact Prod.ext nothing whole

theorem startsWithDigit_eq_false_iff {chars : List Char} :
    startsWithDigit chars = false ↔ chars.takeWhile Char.isDigit = [] := by
  cases chars with
  | nil => exact ⟨fun _ => rfl, fun _ => rfl⟩
  | cons c rest => cases digit : c.isDigit <;> simp [startsWithDigit, digit]

theorem dropWhile_isDigit_eq {chars : List Char} (stops : chars.takeWhile Char.isDigit = []) :
    chars.dropWhile Char.isDigit = chars := by
  have whole := List.takeWhile_append_dropWhile (p := Char.isDigit) (l := chars)
  rwa [stops] at whole

/-- **A positional literal is taken as it stands before what does not go on with it.** -/
theorem take_of_endsBefore (positional : l.IsPositional) (ends : l.EndsBefore rest) :
    take (l.text ++ rest) = (l, rest) := by
  obtain ⟨digit, fraction, exponent⟩ := ends
  have stops := startsWithDigit_eq_false_iff.mp digit
  rw [take_text_append positional]
  simp only [stops, dropWhile_isDigit_eq stops, List.append_nil]
  split
  · next none =>
    rw [takeFraction_of_nil (fraction none)]
    simp only
    rw [takeExponent_of_none exponent, ← none, ← positional.exponent]
  · rw [takeExponent_of_none exponent, ← positional.exponent]

/-- What has `rest` behind it and is no more than `rest` is nothing. -/
theorem eq_nil_of_append_eq {front : List Char} (same : front ++ rest = rest) : front = [] :=
  List.append_left_eq_self.mp same

theorem fractionText_eq_nil_iff {fraction : List Char} :
    fractionText fraction = [] ↔ fraction = [] := by
  cases fraction <;> simp [fractionText]

theorem exponentText_eq_nil_iff {exponent : Option Exponent} :
    (exponent.map Exponent.text).getD [] = [] ↔ exponent = none := by
  cases exponent <;> simp [Exponent.text]

/-- **A positional literal is taken to its end just if what follows does not go on with it.** -/
theorem rest_take_text_iff (positional : l.IsPositional) :
    (take (l.text ++ rest)).2 = rest ↔ l.EndsBefore rest := by
  refine ⟨fun same => ?_, fun ends => by rw [take_of_endsBefore positional ends]⟩
  rw [take_text_append positional] at same
  have digits := List.takeWhile_append_dropWhile (p := Char.isDigit) (l := rest)
  simp only at same
  -- What is taken of `rest` is empty, since all of `rest` is left.
  split at same
  · have fraction := takeFraction_text (rest.dropWhile Char.isDigit)
    have exponent := takeExponent_text (takeFraction (rest.dropWhile Char.isDigit)).2
    rw [same] at exponent
    rw [← exponent, ← List.append_assoc] at fraction
    rw [← fraction, ← List.append_assoc] at digits
    obtain ⟨noDigits, nothing⟩ := List.append_eq_nil_iff.mp (eq_nil_of_append_eq digits)
    obtain ⟨noFraction, noExponent⟩ := List.append_eq_nil_iff.mp nothing
    rw [fractionText_eq_nil_iff, dropWhile_isDigit_eq noDigits] at noFraction
    rw [exponentText_eq_nil_iff, dropWhile_isDigit_eq noDigits,
      takeFraction_of_nil noFraction] at noExponent
    exact ⟨startsWithDigit_eq_false_iff.mpr noDigits, fun _ => noFraction, noExponent⟩
  · next some =>
    have exponent := takeExponent_text (rest.dropWhile Char.isDigit)
    rw [same] at exponent
    rw [← exponent, ← List.append_assoc] at digits
    obtain ⟨noDigits, noExponent⟩ := List.append_eq_nil_iff.mp (eq_nil_of_append_eq digits)
    rw [exponentText_eq_nil_iff, dropWhile_isDigit_eq noDigits] at noExponent
    exact ⟨startsWithDigit_eq_false_iff.mpr noDigits, fun none => absurd none some, noExponent⟩

/-- An exponent goes on behind its mark with a digit or a sign. -/
theorem takeExponent_eq_none {c : Char} {chars : List Char}
    (stops : ∀ d ∈ chars.head?, d.isDigit = false ∧ d ≠ '+' ∧ d ≠ '-') :
    (takeExponent (c :: chars)).1 = none := by
  cases chars with
  | nil => simp [takeExponent, takeSign, startsWithDigit]
  | cons d more =>
    obtain ⟨digit, plus, minus⟩ := stops d rfl
    simp [takeExponent, takeSign, startsWithDigit, digit, plus, minus]

/-- No literal goes on with what starts with neither a digit, nor a point, nor an exponent. -/
theorem endsBefore_of_head
    (stops : ∀ c ∈ rest.head?, c.isDigit = false ∧ c ≠ '.' ∧ c ≠ 'e' ∧ c ≠ 'E') :
    l.EndsBefore rest := by
  cases rest with
  | nil => exact ⟨rfl, fun _ => rfl, rfl⟩
  | cons c more =>
    obtain ⟨digit, point, mark, capital⟩ := stops c rfl
    exact ⟨digit, fun _ => by simp [takeFraction, point], by simp [takeExponent, mark, capital]⟩

/-! ### Whole numbers -/

/-- The literal that a whole number is written as. -/
def ofInt (i : Int) : Literal :=
  ⟨if i < 0 then some '-' else none, Nat.toDigits 10 i.natAbs, [], none⟩

theorem text_ofInt (i : Int) : (ofInt i).text = (toString i).toList := by
  cases i with
  | ofNat n =>
    show (ofInt n).text = (Nat.repr n).toList
    rw [Nat.toList_repr]
    simp [ofInt, text, fractionText]
  | negSucc n =>
    show (ofInt (.negSucc n)).text = ("-" ++ Nat.repr n.succ).toList
    rw [String.toList_append, Nat.toList_repr]
    simp [ofInt, text, fractionText, Int.negSucc_lt_zero]

theorem isPositional_ofInt (i : Int) : (ofInt i).IsPositional where
  sign := by
    unfold ofInt
    split <;> simp
  whole_ne_nil := Nat.toDigits_ne_nil
  isDigit_whole := fun _ => isDigit_of_mem_toDigits
  isDigit_fraction := by simp [ofInt]
  exponent := rfl

theorem value_ofInt (i : Int) : (ofInt i).value = Double.ofDecimal (i < 0) i.natAbs 0 := by
  have sign : ((ofInt i).sign = some '-') ↔ i < 0 := by
    unfold ofInt
    split <;> simp [*]
  rw [value, decide_eq_decide.mpr sign]
  simp only [ofInt, List.append_nil, digitsValue_toDigits]
  rfl

/-- **A whole number of 64 bits is read back from its text.** -/
theorem integer?_ofInt {i : Int} (range : -0x8000000000000000 ≤ i ∧ i < 0x8000000000000000) :
    (ofInt i).integer? = some i := by
  have magnitude : (if (ofInt i).sign = some '-' then -(digitsValue (ofInt i).whole : Int)
      else digitsValue (ofInt i).whole) = i := by
    simp only [ofInt, digitsValue_toDigits]
    split_ifs <;> first | omega | simp_all
  rw [integer?, if_pos (by rfl)]
  simp only [magnitude, if_pos range]

/-- **A literal for a whole number of 64 bits has the value of this number**, but for the sign of
zero. -/
theorem equals_value_ofInt {l : Literal} {i : Int} (whole : l.integer? = some i) :
    (ofInt i).value.equals l.value = true := by
  simp only [integer?, Option.ite_none_right_eq_some, Option.some.injEq] at whole
  obtain ⟨bare, -, magnitude⟩ := whole
  obtain ⟨fraction, exponent⟩ : l.fraction = [] ∧ l.exponent = none := by simpa using bare
  have digits : i.natAbs = digitsValue l.whole := by
    rw [← magnitude]
    split <;> omega
  have value : l.value = Double.ofDecimal (l.sign = some '-') i.natAbs 0 := by
    rw [Literal.value, fraction, exponent, List.append_nil, digits]
    rfl
  rw [value_ofInt, value, Double.ofDecimal_eq, Double.ofDecimal_eq (l.sign = some '-')]
  by_cases zero : i = 0
  · subst zero
    simp [Double.equals, Double.ofDecimal]
  · have sign : decide (i < 0) = decide (l.sign = some '-') := by
      rw [decide_eq_decide]
      split at magnitude
      · next minus => exact iff_of_true (by omega) minus
      · next plus => exact iff_of_false (by omega) plus
    rw [sign]
    simp [Double.equals]
/-! ### Finite numbers -/

/-- The literal that a finite number is written as: its shortest decimal with every place. -/
def ofDouble (d : Double) : Literal :=
  let decimal := shortest .away d.code
  let sign := if d.negative then some '-' else none
  let digits := Nat.toDigits 10 decimal.digits
  match decimal.power with
  | .ofNat k => ⟨sign, digits ++ List.replicate k '0', [], none⟩
  | .negSucc k =>
    let padded := List.replicate (k + 2 - digits.length) '0' ++ digits
    ⟨sign, padded.take (padded.length - (k + 1)), padded.drop (padded.length - (k + 1)), none⟩

theorem toList_signText (d : Double) :
    d.signText.toList = (if d.negative then some '-' else none : Option Char).toList := by
  rw [Double.signText]
  split <;> rfl

theorem text_ofDouble {d : Double} (finite : d.isInfinite = false) :
    (ofDouble d).text = d.plain.toList := by
  have number : ¬ Double.infinityCode < d.code := by
    rw [Double.isInfinite, decide_eq_false_iff_not] at finite
    omega
  rw [Double.plain, if_neg number, finite, ofDouble]
  simp only [Bool.false_eq_true, if_false, String.toList_append, toList_signText]
  generalize shortest .away d.code = decimal
  obtain ⟨n, power⟩ := decimal
  cases power with
  | ofNat k => simp [text, fractionText, Double.zeros, Nat.toString_eq_repr, Nat.toList_repr]
  | negSucc k =>
    simp only [Double.pointed, Nat.toString_eq_repr, Nat.toList_repr]
    generalize Nat.toDigits 10 n = digits
    generalize padded_eq : List.replicate (k + 2 - digits.length) '0' ++ digits = padded
    have long : k + 2 ≤ padded.length := by
      rw [← padded_eq, List.length_append, List.length_replicate]
      omega
    have some : fractionText (padded.drop (padded.length - (k + 1))) =
        '.' :: padded.drop (padded.length - (k + 1)) := by
      cases fraction : padded.drop (padded.length - (k + 1)) with
      | nil =>
        have length := congrArg List.length fraction
        rw [List.length_drop, List.length_nil] at length
        omega
      | cons => rfl
    simp [text, some]

theorem isPositional_ofDouble (d : Double) : (ofDouble d).IsPositional := by
  have minus : ∀ c ∈ (if d.negative then some '-' else none : Option Char), c = '-' := by
    split <;> simp
  rw [ofDouble]
  simp only
  split
  · refine ⟨minus, by simp [Nat.toDigits_ne_nil], fun c member => ?_, by simp, rfl⟩
    rcases List.mem_append.mp member with digit | zero
    · exact isDigit_of_mem_toDigits digit
    · exact isDigit_of_mem_zeros zero
  · next k _ =>
    generalize digits_eq : Nat.toDigits 10 _ = digits
    generalize padded_eq : List.replicate (k + 2 - digits.length) '0' ++ digits = padded
    have isDigit : ∀ c ∈ padded, c.isDigit = true := by
      intro c member
      rw [← padded_eq] at member
      rcases List.mem_append.mp member with zero | digit
      · exact isDigit_of_mem_zeros zero
      · exact isDigit_of_mem_toDigits (digits_eq ▸ digit)
    have long : k + 2 ≤ padded.length := by
      rw [← padded_eq, List.length_append, List.length_replicate]
      omega
    refine ⟨minus, fun none => ?_, fun c member => isDigit c (List.mem_of_mem_take member),
      fun c member => isDigit c (List.mem_of_mem_drop member), rfl⟩
    have length := congrArg List.length none
    rw [List.length_take, List.length_nil] at length
    omega

/-- **The text of a finite number denotes the shortest decimal for it.** -/
theorem value_ofDouble (d : Double) :
    (ofDouble d).value =
      Double.ofDecimal d.negative (shortest .away d.code).digits
        (shortest .away d.code).power := by
  have sign : decide ((if d.negative then some '-' else none : Option Char) = some '-') =
      d.negative := by
    cases d.negative <;> rfl
  rw [ofDouble, value]
  simp only
  split
  · next k power =>
    simp only [sign, power, List.append_nil, List.length_nil, digitsValue_append_zeros,
      digitsValue_toDigits]
    exact Double.ofDecimal_mul_pow _ _ k
  · next k power =>
    generalize digits_eq : Nat.toDigits 10 _ = digits
    have value : digitsValue digits = (shortest .away d.code).digits := by
      rw [← digits_eq, digitsValue_toDigits]
    have places : (digits.length + (k + 2 - digits.length)) -
        (digits.length + (k + 2 - digits.length) - (k + 1)) = k + 1 := by
      omega
    simp only [sign, power, List.take_append_drop, digitsValue_zeros_append, value,
      List.length_drop, List.length_append, List.length_replicate, Nat.add_comm _ digits.length,
      places]
    rfl

end Literal

end PagedHtml.Number
