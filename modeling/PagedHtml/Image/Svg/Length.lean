/-
**Lengths and view boxes of vector images.**

A length is a number of pixels or a share of the view box (`Length.measure?`). Lengths are measured
in numbers of 32 bits, each sum, product and quotient rounded by itself.
-/

import PagedHtml.Number.Pointed
import PagedHtml.Number.Single
import PagedHtml.Xml.Name

namespace PagedHtml.Image.Svg

open Number (Double Literal Single)
open Text (Reader)
open Text.Reader

/-- An exponent, if there is one. An `e` before `m` or `x` starts a unit and no exponent, but after
any other a digit has to come. -/
def exponent : Reader (Option Number.Exponent) := do
  if (← sees "em") || (← sees "ex") || (← sees "Em") || (← sees "Ex") then return none
  else if (← sees "e") || (← sees "E") then
    let (found, rest) := Literal.takeExponent (← get)
    set rest
    guard found.isSome
    return found
  else return none

/-- A finite number, before which spaces may stand. -/
def number : Reader Double := do
  Xml.skipSpaces
  let (literal, rest) ← Literal.takePointed? (← get)
  set rest
  let value := { literal with exponent := ← exponent }.value
  guard !value.isInfinite
  return value

/-! ### View boxes -/

structure ViewBox where
  width : Single
  height : Single
  deriving DecidableEq, Repr

namespace ViewBox

/-- The box that an image without a view box is measured by. -/
def standard : ViewBox := ⟨⟨100 * Single.one⟩, ⟨100 * Single.one⟩⟩

/-- A number in a list: spaces and a comma may follow it. -/
def entry : Reader Double := do
  let value ← number
  Xml.skipSpaces
  discard (accept ",")
  return value

/-- What lies between the two ends of a side, of which the second is the sum of the first and the
length; the ends have to differ. -/
def side? (first length : Double) : Option Single := do
  let first ← Single.ofDouble? first
  let last ← first.add? (← Single.ofDouble? length)
  if first.steps < last.steps then last.sub? first else none

/-- The view box that a text gives by its left and upper end, width and height. What follows these
numbers does not count. -/
def ofText? (text : String) : Option ViewBox := do
  let numbers : Reader ViewBox := do
    let left ← entry
    let upper ← entry
    let width ← entry
    let height ← entry
    return ⟨← side? left width, ← side? upper height⟩
  numbers.run' text.toList

end ViewBox

/-! ### Lengths -/

inductive Length where
  | pixels (count : Double)
  /-- Hundredths of the view box. -/
  | percent (share : Double)
  deriving DecidableEq, Repr

namespace Length

/-- The whole side of the view box. -/
def whole : Length := .percent (Double.ofNat 100)

def ofText? (text : String) : Option Length := do
  let (value, rest) ← number.run text.toList
  match String.ofList rest with
  | "" | "px" => some (.pixels value)
  | "%" => some (.percent value)
  | _ => none

/-- The length beside a side of the view box, if it is greater than zero and not too great. -/
def measure? (side : Single) (length : Length) : Option Single := do
  let measured ←
    match length with
    | .pixels count => Single.ofDouble? count
    | .percent share => side.mul? (← Single.ofDouble? share) >>= (Single.divNat? · 100)
  guard measured.isPositive
  return measured

end Length

end PagedHtml.Image.Svg
