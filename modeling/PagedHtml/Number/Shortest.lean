/-
**The shortest decimal that reads back as a given number, and the two forms it is written in.**

Every finite `Double` is the nearest one for a whole interval of reals, which contains its ends
exactly when the code is even (`Interval`). Among the decimals with the fewest digits in that
interval, `shortest` is the one nearest to the number itself; a `Tie` decides between two at equal
distance.

* `plain` writes every place: `0.0000001`, `100000000000000000000`, `-0`, `inf`;
* `scientificBeyond` writes a fraction digit always, and an exponent once the leading digit stands
  more than 15 places before the point or more than 5 after it: `2.0`, `1e-7`, `1.5e+300`.
-/

import PagedHtml.Number.Double

namespace PagedHtml.Number

structure Decimal where
  digits : Nat
  power : Int
  deriving DecidableEq, Repr

/-- Which of two decimals at equal distance is taken. -/
inductive Tie where
  /-- The one of greater magnitude. -/
  | away
  /-- The one with the even last digit. -/
  | even
  deriving DecidableEq, Repr

namespace Decimal

/-- The decimal with the zeros at the end of its digits moved into its power. -/
def normalize (digits : Nat) (power : Int) : Decimal :=
  let shown := Nat.toDigits 10 digits
  let zeros := (shown.reverse.takeWhile (· == '0')).length
  if digits = 0 then ⟨0, 0⟩ else ⟨digits / Nat.pow 10 zeros, power + (zeros : Nat)⟩

end Decimal

/-- The reals that round to one code, as quotients over `den`, with the number itself between. -/
structure Interval where
  low : Nat
  middle : Nat
  high : Nat
  den : Nat
  /-- Whether the two ends round to the code as well. -/
  closed : Bool

namespace Interval

/-- The interval of a finite code. Below a power of two the magnitudes lie half as far apart. -/
def ofCode (code : Nat) : Interval :=
  let significand := Double.significandOf code
  let narrowBelow := code % Double.block == 0 && Double.block < code
  let low := 4 * significand - (if narrowBelow then 1 else 2)
  let middle := 4 * significand
  let high := 4 * significand + 2
  let closed := code % 2 == 0
  match Double.exponentOf code with
  | .ofNat k => ⟨low * Nat.pow 2 k, middle * Nat.pow 2 k, high * Nat.pow 2 k, 4, closed⟩
  | .negSucc k => ⟨low, middle, high, 4 * Nat.pow 2 (k + 1), closed⟩

/-- Whether the quotient `num / den` lies in the interval. -/
def contains (interval : Interval) (num den : Nat) : Bool :=
  let value := num * interval.den
  let low := interval.low * den
  let high := interval.high * den
  if interval.closed then low ≤ value && value ≤ high else low < value && value < high

/-- The place of the leading decimal digit of the middle, which is positive: the greatest `k` with
`10 ^ k` at most the middle. -/
def leadingPlace (interval : Interval) : Int :=
  let whole := interval.middle / interval.den
  if whole = 0 then
    let inverse := interval.den / interval.middle
    let length := Double.decimalLength inverse
    if inverse * interval.middle = interval.den ∧ inverse = Nat.pow 10 (length - 1) then
      1 - (length : Int)
    else - (length : Int)
  else (Double.decimalLength whole : Int) - 1

/-- The better of the two neighbours of the middle on the grid of `10 ^ power`, if one is in the
interval. -/
def candidate (interval : Interval) (tie : Tie) (power : Int) : Option Decimal :=
  let (num, den) :=
    match power with
    | .ofNat k => (interval.middle, interval.den * Nat.pow 10 k)
    | .negSucc k => (interval.middle * Nat.pow 10 (k + 1), interval.den)
  let below := num / den
  let remainder := num % den
  let inside (digits : Nat) : Bool :=
    match power with
    | .ofNat k => interval.contains (digits * Nat.pow 10 k) 1
    | .negSucc k => interval.contains digits (Nat.pow 10 (k + 1))
  let upperIsNearer :=
    if 2 * remainder = den then
      match tie with
      | .away => true
      | .even => below % 2 == 1
    else den < 2 * remainder
  let (first, second) := if upperIsNearer then (below + 1, below) else (below, below + 1)
  if inside first then some ⟨first, power⟩
  else if inside second then some ⟨second, power⟩
  else none

end Interval

/-- The shortest decimal that reads back as a finite code. Seventeen digits always suffice. -/
def shortest (tie : Tie) (code : Nat) : Decimal :=
  if code = 0 then ⟨0, 0⟩
  else
    let interval := Interval.ofCode code
    let place := interval.leadingPlace
    let found := (List.range 18).findSome? fun n => interval.candidate tie (place - (n : Nat))
    match found with
    | some decimal => Decimal.normalize decimal.digits decimal.power
    | none => ⟨0, 0⟩

namespace Double

/-- The sign as it is written in front of a magnitude. -/
def signText (d : Double) : String := if d.negative then "-" else ""

def zeros (n : Nat) : String := String.ofList (List.replicate n '0')

/-- Digits with the point `places` places before their end, in front of which stands at least one
digit. -/
def pointed (digits : String) (places : Nat) : String :=
  let shown := digits.toList
  let padded := List.replicate (places + 1 - shown.length) '0' ++ shown
  String.ofList (padded.take (padded.length - places)) ++ "." ++
    String.ofList (padded.drop (padded.length - places))

/-- The number with every place written out and no exponent. -/
def plain (d : Double) : String :=
  if infinityCode < d.code then "NaN"
  else if d.isInfinite then d.signText ++ "inf"
  else
    let decimal := shortest .away d.code
    let digits := toString decimal.digits
    d.signText ++
      match decimal.power with
      | .ofNat k => digits ++ zeros k
      | .negSucc k => pointed digits (k + 1)

/-- The number with at least one fraction digit, or in scientific form when its leading digit stands
more than 15 places before the point or more than 5 after it. -/
def scientificBeyond (d : Double) : String :=
  let decimal := shortest .even d.code
  let digits := toString decimal.digits
  let place : Int := (digits.length : Int) - 1 + decimal.power
  d.signText ++
    if -5 ≤ place ∧ place ≤ 15 then
      match decimal.power with
      | .ofNat k => digits ++ zeros k ++ ".0"
      | .negSucc k => pointed digits (k + 1)
    else
      let mantissa := if digits.length = 1 then digits else pointed digits (digits.length - 1)
      match place with
      | .ofNat k => mantissa ++ "e+" ++ toString k
      | .negSucc k => mantissa ++ "e-" ++ toString (k + 1)

end Double

end PagedHtml.Number
