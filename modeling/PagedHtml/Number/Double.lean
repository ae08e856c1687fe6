/-
**Binary floating-point numbers of 64 bits, in exact arithmetic.**

A `Double` is a sign and a code. The codes count the magnitudes from zero upward: code `0` is zero,
the next `2 ^ 52 - 1` codes are the subnormal magnitudes, and each further block of `2 ^ 52` codes
doubles the step, up to `infinityCode`. A finite code denotes `significand * 2 ^ exponent`.

`ofRatio` rounds a quotient of natural numbers to the nearest magnitude, ties to the even code; the
readers of decimal text (`ofDecimal`), the products and the quotients are roundings of that kind, so
no hardware arithmetic takes part in any of them.
-/

namespace PagedHtml.Number

/-- A binary floating-point number: a sign, and the place of its magnitude among all magnitudes. -/
structure Double where
  /-- Whether the number carries a minus sign; zero may carry one too. -/
  negative : Bool
  /-- The place of the magnitude, counted from zero upward. -/
  code : Nat
  deriving DecidableEq, Repr, Inhabited

namespace Double

/-- The number of codes in a block of equally spaced magnitudes. -/
def block : Nat := 0x10000000000000

/-- The code of infinity, the first that stands for no finite magnitude. -/
def infinityCode : Nat := 2047 * block

/-- The exponent of the step between the smallest magnitudes. -/
def leastExponent : Int := -1074

/-- The whole number that the magnitude of a finite code has in units of `2 ^ exponent`. -/
def significandOf (code : Nat) : Nat :=
  if code < block then code else block + code % block

/-- The exponent of the unit in which a finite code is a whole number. -/
def exponentOf (code : Nat) : Int :=
  if code < block then leastExponent else leastExponent + (code / block : Nat) - 1

def zero : Double := ⟨false, 0⟩

def infinity : Double := ⟨false, infinityCode⟩

/-- What is no number, at the place after infinity. -/
def notANumber : Double := ⟨false, infinityCode + 1⟩

def isInfinite (d : Double) : Bool := infinityCode ≤ d.code

/-- The same magnitude with the other sign. -/
def negate (d : Double) : Double := ⟨!d.negative, d.code⟩

/-- The magnitude of a finite number as a numerator and a denominator. -/
def ratio (d : Double) : Nat × Nat :=
  let significand := significandOf d.code
  match exponentOf d.code with
  | .ofNat power => (significand * Nat.pow 2 power, 1)
  | .negSucc power => (significand, Nat.pow 2 (power + 1))

/-! ### Rounding -/

/-- A quotient rounded to the nearest whole number, a tie going to the even one. -/
def roundQuotient (num den : Nat) : Nat :=
  let quotient := num / den
  let twice := 2 * (num % den)
  if twice < den then quotient
  else if den < twice then quotient + 1
  else quotient + quotient % 2

/-- The greatest `k` with `2 ^ k ≤ num / den`, for positive numbers. -/
def floorLog2 (num den : Nat) : Int :=
  let guess : Int := (num.log2 : Int) - (den.log2 : Int)
  let reached : Bool :=
    match guess with
    | .ofNat k => den * Nat.pow 2 k ≤ num
    | .negSucc k => den ≤ num * Nat.pow 2 (k + 1)
  if reached then guess else guess - 1

/-- The code nearest to a positive quotient, a tie going to the even code. -/
def nearestCode (num den : Nat) : Nat :=
  let exponent := max leastExponent (floorLog2 num den - 52)
  let significand :=
    match exponent with
    | .ofNat k => roundQuotient num (den * Nat.pow 2 k)
    | .negSucc k => roundQuotient (num * Nat.pow 2 (k + 1)) den
  min infinityCode ((exponent - leastExponent).toNat * block + significand)

/-- The number nearest to a quotient of natural numbers. -/
def ofRatio (negative : Bool) (num den : Nat) : Double :=
  ⟨negative, if num = 0 then 0 else nearestCode num den⟩

def ofNat (n : Nat) : Double := ofRatio false n 1

/-- The number of decimal digits of a natural number; zero has one. -/
def decimalLength (n : Nat) : Nat := (Nat.toDigits 10 n).length

/-- The number nearest to `digits * 10 ^ power`. Beyond 310 places before the point every magnitude
is infinite and beyond 330 places after it every magnitude is zero, so no greater power is formed.
-/
def ofDecimal (negative : Bool) (digits : Nat) (power : Int) : Double :=
  let leading : Int := (decimalLength digits : Int) + power
  if digits = 0 ∨ leading < -330 then ⟨negative, 0⟩
  else if 310 < leading then ⟨negative, infinityCode⟩
  else
    match power with
    | .ofNat k => ofRatio negative (digits * Nat.pow 10 k) 1
    | .negSucc k => ofRatio negative digits (Nat.pow 10 (k + 1))

/-! ### Arithmetic and comparison -/

/-- The product of two finite numbers, rounded once. -/
def mul (a b : Double) : Double :=
  let (numA, denA) := a.ratio
  let (numB, denB) := b.ratio
  ofRatio (a.negative != b.negative) (numA * numB) (denA * denB)

/-- The quotient of two finite numbers, rounded once; the divisor is not zero. -/
def div (a b : Double) : Double :=
  let (numA, denA) := a.ratio
  let (numB, denB) := b.ratio
  ofRatio (a.negative != b.negative) (numA * denB) (denA * numB)

/-- Equality as numbers: the sign of zero does not count. -/
def equals (a b : Double) : Bool :=
  a.code == b.code && (a.negative == b.negative || a.code == 0)

/-- Whether the magnitude lies below `2 ^ -52`, the step after one. -/
def isNegligible (d : Double) : Bool :=
  d.code < nearestCode 1 block

end Double

end PagedHtml.Number
