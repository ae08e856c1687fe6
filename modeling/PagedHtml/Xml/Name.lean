/-
**The characters and the names of XML.**

A name may be qualified: a colon divides what stands for a name space (`qualifier`) from the name in
that space (`base`). Both parts start with a letter or a character that counts as one; the first may
be missing.
-/

import PagedHtml.Text.Reader

namespace PagedHtml.Xml

open Text (Reader)
open Text.Reader

/-! ### Characters -/

/-- A space of XML, which the form feed is not. -/
def isSpace (c : Char) : Bool := c == ' ' || c == '\t' || c == '\n' || c == '\r'

/-- Whether a character may occur in a document: control characters may not, spaces aside, nor may
the last two of the basic plane. -/
def isCharacter (c : Char) : Bool :=
  isSpace c || (0x20 ≤ c.toNat && c.toNat != 0xFFFE && c.toNat != 0xFFFF)

/-- The ranges of the characters that a name may start with. -/
def nameStarts : List (Nat × Nat) :=
  [(0x3A, 0x3A), (0x41, 0x5A), (0x5F, 0x5F), (0x61, 0x7A), (0xC0, 0xD6), (0xD8, 0xF6),
    (0xF8, 0x2FF), (0x370, 0x37D), (0x37F, 0x1FFF), (0x200C, 0x200D), (0x2070, 0x218F),
    (0x2C00, 0x2FEF), (0x3001, 0xD7FF), (0xF900, 0xFDCF), (0xFDF0, 0xFFFD), (0x10000, 0xEFFFF)]

/-- The ranges of the characters that a name may hold but not start with. -/
def nameFollowers : List (Nat × Nat) :=
  [(0x2D, 0x2E), (0x30, 0x39), (0xB7, 0xB7), (0x300, 0x36F), (0x203F, 0x2040)]

/-- Whether a character lies in one of some ranges, their ends included. -/
def isWithin (ranges : List (Nat × Nat)) (c : Char) : Bool :=
  ranges.any fun (first, last) => first ≤ c.toNat && c.toNat ≤ last

def isNameStart (c : Char) : Bool := isWithin nameStarts c

def isNameChar (c : Char) : Bool := isNameStart c || isWithin nameFollowers c

/-! ### Names -/

/-- A name, and what qualifies it; without a qualifier that is empty. -/
structure Name where
  qualifier : String
  base : String
  deriving DecidableEq, Repr

/-- A name in which a colon is a character like others. -/
def plainName : Reader String := do
  guard ((← get).head?.any isNameStart)
  return String.ofList (← takeWhile isNameChar)

def Name.reader : Reader Name := do
  let (qualifier, base) ←
    match Text.pieces (· == ':') (← takeWhile isNameChar) with
    | [base] => pure ([], base)
    | [qualifier, base] => pure (qualifier, base)
    | _ => failure
  guard (qualifier.head?.all isNameStart && base.head?.any isNameStart)
  return ⟨String.ofList qualifier, String.ofList base⟩

/-! ### Spaces -/

/-- Takes the spaces at the front and says whether there are any. -/
def acceptSpaces : Reader Bool := return !(← takeWhile isSpace).isEmpty

/-- Takes the spaces at the front, if there are any. -/
def skipSpaces : Reader Unit := discard (takeWhile isSpace)

/-- Takes the spaces at the front, of which there has to be one. -/
def spaces : Reader Unit := do
  guard (← acceptSpaces)

end PagedHtml.Xml
