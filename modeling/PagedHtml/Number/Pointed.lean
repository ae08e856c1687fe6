/-
**Decimal numbers with a point anywhere: before, among or after their digits.**

A style sheet wants a digit after each point. Elsewhere `5.` and `.5` are numbers too;
`Literal.takePointed?` takes such a number, and `Double.ofText?` reads a whole text as one, with an
exponent or as a word.
-/

import PagedHtml.Number.Literal
import PagedHtml.Text.Ascii

namespace PagedHtml.Number

/-- The number without exponent at the front, which has a digit at least. -/
def Literal.takePointed? (chars : List Char) : Option (Literal × List Char) :=
  let (sign, unsigned) := takeSign chars
  let whole := unsigned.takeWhile Char.isDigit
  let (fraction, rest) :=
    match unsigned.dropWhile Char.isDigit with
    | '.' :: rest => (rest.takeWhile Char.isDigit, rest.dropWhile Char.isDigit)
    | rest => ([], rest)
  if whole.isEmpty && fraction.isEmpty then none else some (⟨sign, whole, fraction, none⟩, rest)

/-- The number that a word stands for, letter case aside. -/
def Double.ofWord? (word : String) : Option Double :=
  if Text.equalsIgnoringCase word "inf" || Text.equalsIgnoringCase word "infinity" then
    some infinity
  else if Text.equalsIgnoringCase word "nan" then some notANumber
  else none

/-- The number that a text denotes: in digits, perhaps with an exponent, or by a word. -/
def Double.ofText? (text : String) : Option Double :=
  match Literal.takePointed? text.toList with
  | some (literal, rest) =>
    match Literal.takeExponent rest with
    | (exponent, []) => some { literal with exponent }.value
    | _ => none
  | none =>
    let (sign, word) := Literal.takeSign text.toList
    (ofWord? (String.ofList word)).map fun d => if sign = some '-' then d.negate else d

end PagedHtml.Number
