/-
**References, and text that holds them.**

Between `&` and `;` a number or one of five names stands for a character, and any other name for an
entity that the document declares. `segments?` divides text into what stands for itself and what is
referred to.
-/

import PagedHtml.Number.Literal
import PagedHtml.Text.Hex
import PagedHtml.Xml.Name

namespace PagedHtml.Xml

open Text (Reader)
open Text.Reader

inductive Referent where
  | character (c : Char)
  | entity (name : String)
  deriving DecidableEq, Repr

namespace Referent

/-- The entities that need no declaration. -/
def predeclared : List (String × Char) :=
  [("quot", '"'), ("amp", '&'), ("apos", '\''), ("lt", '<'), ("gt", '>')]

/-- The character with a number of 32 bits, if a document may hold it. The replacement character
takes the place of numbers that no character has. -/
def ofCode? (code : Nat) : Option Referent :=
  let c := if code.isValidChar then Char.ofNat code else '\uFFFD'
  if code < 0x100000000 && isCharacter c then some (.character c) else none

def ofName (name : String) : Referent :=
  match predeclared.lookup name with
  | some c => .character c
  | none => .entity name

/-- What a number stands for: hexadecimal digits after an `x`, or else decimal digits. -/
def numbered : Reader Referent := do
  if ← accept "x" then
    let digits ← takeWhile Text.isHexDigit
    guard !digits.isEmpty
    ofCode? (← Text.hexNumber? digits)
  else
    let digits ← takeWhile Char.isDigit
    guard !digits.isEmpty
    ofCode? (Number.digitsValue digits)

/-- A reference, of which the first character is taken. -/
def reader : Reader Referent := do
  let referent ← if ← accept "#" then numbered else ofName <$> plainName
  expect ";"
  return referent

end Referent

/-- A part of a text with references. -/
inductive Segment where
  | characters (chars : List Char)
  | reference (referent : Referent)
  deriving DecidableEq, Repr

/-- The parts of a text, if each of its references is well formed. -/
def segments? (chars : List Char) : Option (List Segment) :=
  match Text.pieces (· == '&') chars with
  | [] => some []
  | first :: others => do
    let parts ← others.mapM fun piece => do
      let (referent, rest) ← Referent.reader.run piece
      return [Segment.reference referent, .characters rest]
    return .characters first :: parts.flatten

end PagedHtml.Xml
