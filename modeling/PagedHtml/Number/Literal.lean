/-
**The written form of a number in a style sheet.**

A `Literal` keeps the parts of a numeric literal apart: a sign, the digits before and after the
point, and an exponent. `Literal.take` takes the longest literal at the start of some characters;
the parts written out again are exactly the characters taken (`Literal.take_text`).
-/

import PagedHtml.Number.Double

namespace PagedHtml.Number

/-- The exponent part of a literal: its mark, its sign, and its digits. -/
structure Exponent where
  mark : Char
  sign : Option Char
  digits : List Char
  deriving DecidableEq, Repr

/-- A numeric literal, part by part. A literal without a point has no fraction digits. -/
structure Literal where
  sign : Option Char
  whole : List Char
  fraction : List Char
  exponent : Option Exponent
  deriving DecidableEq, Repr

def digitsValue (digits : List Char) : Nat :=
  digits.foldl (fun value digit => 10 * value + (digit.toNat - '0'.toNat)) 0

namespace Exponent

def text (e : Exponent) : List Char := e.mark :: (e.sign.toList ++ e.digits)

def value (e : Exponent) : Int :=
  if e.sign = some '-' then -(digitsValue e.digits : Int) else digitsValue e.digits

end Exponent

namespace Literal

/-- Fraction digits as they are written; without any there is no point. -/
def fractionText : List Char → List Char
  | [] => []
  | digit :: rest => '.' :: digit :: rest

def text (l : Literal) : List Char :=
  l.sign.toList ++ l.whole ++ fractionText l.fraction ++ (l.exponent.map Exponent.text).getD []

/-- The number nearest to the decimal that the literal denotes. -/
def value (l : Literal) : Double :=
  Double.ofDecimal (l.sign = some '-') (digitsValue (l.whole ++ l.fraction))
    ((l.exponent.map Exponent.value).getD 0 - l.fraction.length)

/-- The whole number that the literal denotes, if it is written without point and exponent and lies
in the range of 64-bit signed integers. -/
def integer? (l : Literal) : Option Int :=
  if l.fraction.isEmpty && l.exponent.isNone then
    let magnitude : Int := digitsValue l.whole
    let value := if l.sign = some '-' then -magnitude else magnitude
    if -0x8000000000000000 ≤ value ∧ value < 0x8000000000000000 then some value else none
  else none

/-! ### Taking a literal from the front of some characters -/

def takeSign : List Char → Option Char × List Char
  | [] => (none, [])
  | c :: rest => if c == '+' || c == '-' then (some c, rest) else (none, c :: rest)

def startsWithDigit (chars : List Char) : Bool := chars.head?.any Char.isDigit

/-- The digits of a fraction at the front: a point that a digit follows. -/
def takeFraction : List Char → List Char × List Char
  | [] => ([], [])
  | c :: rest =>
    if c == '.' && startsWithDigit rest then
      (rest.takeWhile Char.isDigit, rest.dropWhile Char.isDigit)
    else ([], c :: rest)

/-- An exponent at the front: its mark and perhaps a sign, which a digit follows. -/
def takeExponent : List Char → Option Exponent × List Char
  | [] => (none, [])
  | c :: rest =>
    let (sign, digits) := takeSign rest
    if (c == 'e' || c == 'E') && startsWithDigit digits then
      (some ⟨c, sign, digits.takeWhile Char.isDigit⟩, digits.dropWhile Char.isDigit)
    else (none, c :: rest)

/-- The longest literal at the front, and what follows it. -/
def take (chars : List Char) : Literal × List Char :=
  let (sign, unsigned) := takeSign chars
  let (fraction, afterFraction) := takeFraction (unsigned.dropWhile Char.isDigit)
  let (exponent, rest) := takeExponent afterFraction
  (⟨sign, unsigned.takeWhile Char.isDigit, fraction, exponent⟩, rest)

/-! ### Nothing is lost -/

/-- A sign and what follows it make up the characters. -/
theorem takeSign_text (chars : List Char) :
    (takeSign chars).1.toList ++ (takeSign chars).2 = chars := by
  cases chars with
  | nil => rfl
  | cons c rest => simp only [takeSign]; split <;> rfl

/-- A fraction and what follows it make up the characters. -/
theorem takeFraction_text (chars : List Char) :
    fractionText (takeFraction chars).1 ++ (takeFraction chars).2 = chars := by
  cases chars with
  | nil => rfl
  | cons c rest =>
    simp only [takeFraction]
    split
    · next holds =>
      obtain ⟨point, digit⟩ : c = '.' ∧ startsWithDigit rest = true := by simpa using holds
      cases rest with
      | nil => simp [startsWithDigit] at digit
      | cons d rest =>
        have isDigit : d.isDigit = true := by simpa [startsWithDigit] using digit
        simp [fractionText, isDigit, point, List.takeWhile_append_dropWhile]
    · rfl

/-- An exponent and what follows it make up the characters. -/
theorem takeExponent_text (chars : List Char) :
    ((takeExponent chars).1.map Exponent.text).getD [] ++ (takeExponent chars).2 = chars := by
  cases chars with
  | nil => rfl
  | cons c rest =>
    simp only [takeExponent]
    split
    · simp [Exponent.text, List.takeWhile_append_dropWhile, takeSign_text]
    · simp

/-- A literal and what follows it make up the characters. -/
theorem take_text (chars : List Char) : (take chars).1.text ++ (take chars).2 = chars := by
  simp only [take, text, List.append_assoc]
  rw [takeExponent_text, takeFraction_text, List.takeWhile_append_dropWhile, takeSign_text]

theorem take_suffix (chars : List Char) : (take chars).2 <:+ chars :=
  ⟨_, take_text chars⟩

/-- What follows a literal is shorter than the characters, if a sign or a digit stands at their
front, or a point before a digit. -/
theorem length_take_lt {c : Char} {rest : List Char}
    (starts : c = '+' ∨ c = '-' ∨ c.isDigit ∨ (c = '.' ∧ startsWithDigit rest)) :
    (take (c :: rest)).2.length < (c :: rest).length := by
  have whole := congrArg List.length (take_text (c :: rest))
  have nonempty : (take (c :: rest)).1.text ≠ [] := by
    by_cases signed : (c == '+' || c == '-') = true
    · simp [take, takeSign, signed, text]
    · obtain ⟨notPlus, notMinus⟩ : c ≠ '+' ∧ c ≠ '-' := by simpa using signed
      rcases starts with plus | minus | digit | ⟨rfl, digit⟩
      · exact absurd plus notPlus
      · exact absurd minus notMinus
      · simp [take, takeSign, signed, text, digit]
      · cases rest with
        | nil => simp [startsWithDigit] at digit
        | cons d more =>
          have isDigit : d.isDigit = true := by simpa [startsWithDigit] using digit
          have notDigit : Char.isDigit '.' = false := by decide
          simp [take, takeSign, takeFraction, startsWithDigit, text, fractionText, isDigit,
            notDigit]
  have positive := List.length_pos_iff.2 nonempty
  rw [List.length_append] at whole
  omega

end Literal

end PagedHtml.Number
