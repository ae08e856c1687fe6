/-
**JSON values to be written, and the codec that writes and reads them.**

What has a JSON form says which value it is (`Value`); a `Codec`, which is given from outside, turns
values into text and text into nodes (`PagedHtml.Json.Node`). `Codec.Lawful` is what a codec is for:
texts and whole numbers, by their keys, are read as they were written.
-/

import PagedHtml.Json.Node

namespace PagedHtml.Json

open Number (Double)

/-- **A JSON value.** The members of an object keep their order. -/
inductive Value where
  | null
  | bool (value : Bool)
  | number (value : Double)
  | text (value : String)
  | array (items : List Value)
  | object (members : List (String × Value))

namespace Value

/-- A text, or nothing as a null. -/
def ofText? : Option String → Value
  | some value => text value
  | none => null

mutual

/-- The node of a value, where nothing is broken. -/
def node : Value → Node
  | null => .null
  | bool value => .bool value
  | number value => .number (some value)
  | text value => .text (some value)
  | array items => .array (itemNodes items)
  | object members => .object (memberNodes members)

def itemNodes : List Value → Items
  | [] => .closed
  | item :: rest => .cons item.node (itemNodes rest)

def memberNodes : List (String × Value) → Members
  | [] => .closed
  | (key, value) :: rest => .cons (some key) value.node (memberNodes rest)

end

/-- **A text, or a whole number of 32 bits.** -/
inductive IsPlain : Value → Prop
  | text (value : String) : IsPlain (.text value)
  | ofNat {n : Nat} : n < 0x100000000 → IsPlain (.number (.ofNat n))

end Value

/-- What writes values as text and reads texts as nodes. -/
class Codec where
  write : Value → String
  /-- The node of the value that a text starts with, and whether nothing stands behind it. -/
  read : String → Node × Bool
  /-- The depth to which arrays and objects of a text may be nested, and one more. -/
  depthLimit : Nat

/-- **The laws of a codec**: an object of texts and whole numbers is read as it was written. -/
structure Codec.Lawful [Codec] : Prop where
  read_write {members : List (String × Value)} (plain : ∀ member ∈ members, member.2.IsPlain) :
    read (write (.object members)) = ((Value.object members).node, true)
  one_lt_depthLimit : 1 < depthLimit

end PagedHtml.Json
