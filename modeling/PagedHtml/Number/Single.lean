/-
**Binary floating-point numbers of 32 bits, in exact arithmetic.**

The finite numbers are the whole multiples of the least one, `2 ^ -149`, that need no more than 24
significant bits and lie below `2 ^ 128`. A `Single` holds the multiple, and `ofRatio?` rounds to
it, ties to even; what is too great for a finite number is none. Zero has no sign here.
-/

import PagedHtml.Number.Double

namespace PagedHtml.Number

/-- A finite number of 32 bits, in steps of `2 ^ -149`. -/
structure Single where
  steps : Int
  deriving DecidableEq, Repr

namespace Single

def one : Nat := Nat.pow 2 149

/-- The magnitude nearest to `num / den` steps, a tie going to the even one. -/
def nearestSteps (num den : Nat) : Nat :=
  let unit := Nat.pow 2 ((num / den).log2 - 23)
  Double.roundQuotient num (den * unit) * unit

/-- The number nearest to `num / den` steps. -/
def ofRatio? (num : Int) (den : Nat) : Option Single :=
  let steps := nearestSteps num.natAbs den
  if steps < Nat.pow 2 128 * one then some ⟨num.sign * steps⟩ else none

def ofDouble? (d : Double) : Option Single :=
  if d.isInfinite then none
  else
    let (num, den) := d.ratio
    ofRatio? ((if d.negative then -1 else 1) * (num * one : Nat)) den

/-- The sum, rounded once. -/
def add? (a b : Single) : Option Single := ofRatio? (a.steps + b.steps) 1

def sub? (a b : Single) : Option Single := ofRatio? (a.steps - b.steps) 1

def mul? (a b : Single) : Option Single := ofRatio? (a.steps * b.steps) one

/-- The quotient by a whole number, rounded once. -/
def divNat? (a : Single) (n : Nat) : Option Single := if n = 0 then none else ofRatio? a.steps n

def isPositive (a : Single) : Bool := 0 < a.steps

/-- The least natural number that is not less. -/
def ceil (a : Single) : Nat := (a.steps.toNat + one - 1) / one

end Single

end PagedHtml.Number
