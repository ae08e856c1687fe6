/-
**Styles: which properties are set, and to what.**

A style assigns a value to some of the properties. As the vocabulary is closed, a style is a
function on it, so two styles with the same assignments are the same style, whatever the order they
were made in; `entries` lists the assignments in the order of the vocabulary.

`merge` lets a second style override a first one, and `merged` does so along a list: the last style
of the list that sets a property decides it.
-/

import PagedHtml.Number.Shortest
import PagedHtml.Style.Property

namespace PagedHtml.Style

open Number (Double)

/-- The value of a property: a number, or text in the output's vocabulary. -/
inductive Value where
  | number (value : Double)
  | text (value : String)
  deriving DecidableEq, Repr

namespace Value

/-- The text of a value that is no number. -/
def text? : Value → Option String
  | number _ => none
  | text value => some value

/-- Whether the value is the text `0` or a number that cannot be told from zero. -/
def isZero : Value → Bool
  | number value => value.isNegligible
  | text value => value == "0"

def display : Value → String
  | number value => value.plain
  | text value => value

/-- Equality of values; numbers are equal as numbers. -/
def equals : Value → Value → Bool
  | number a, number b => a.equals b
  | text a, text b => a == b
  | _, _ => false

def ofNat (n : Nat) : Value := number (Double.ofNat n)

end Value

/-- A style: the value of each property that it sets. -/
@[ext] structure Map where
  /-- The value of a property, if the style sets it. -/
  get? : Property → Option Value

namespace Map

def empty : Map := ⟨fun _ => none⟩

instance : Inhabited Map := ⟨empty⟩

def insert (style : Map) (property : Property) (value : Value) : Map :=
  ⟨fun p => if p = property then some value else style.get? p⟩

def erase (style : Map) (property : Property) : Map :=
  ⟨fun p => if p = property then none else style.get? p⟩

/-- The style overridden by another one. -/
def merge (style above : Map) : Map := ⟨fun p => (above.get? p).or (style.get? p)⟩

/-- Styles laid over each other in order. -/
def merged (styles : List Map) : Map := styles.foldl merge empty

/-- The style of a list of assignments, the later of which win. -/
def ofList (entries : List (Property × Value)) : Map :=
  entries.foldl (fun style (property, value) => style.insert property value) empty

def contains (style : Map) (property : Property) : Bool := (style.get? property).isSome

/-- The assignments, in the order of the vocabulary. -/
def entries (style : Map) : List (Property × Value) :=
  Property.all.filterMap fun property => (style.get? property).map fun value => (property, value)

def size (style : Map) : Nat := style.entries.length

def isEmpty (style : Map) : Bool := style.entries.isEmpty

def equals (a b : Map) : Bool :=
  Property.all.all fun property =>
    match a.get? property, b.get? property with
    | none, none => true
    | some x, some y => x.equals y
    | _, _ => false

/-! ### What the operations set -/

@[simp] theorem get?_empty (property : Property) : empty.get? property = none := rfl

@[simp] theorem get?_insert (style : Map) (property p : Property) (value : Value) :
    (style.insert property value).get? p = if p = property then some value else style.get? p := rfl

@[simp] theorem get?_merge (style above : Map) (property : Property) :
    (style.merge above).get? property = (above.get? property).or (style.get? property) := rfl

/-- An assignment is listed exactly if it is set. -/
theorem mem_entries {style : Map} {property : Property} {value : Value} :
    (property, value) ∈ style.entries ↔ style.get? property = some value := by
  simp only [entries, List.mem_filterMap, Option.map_eq_some_iff, Prod.mk.injEq]
  constructor
  · rintro ⟨_, _, _, set, rfl, rfl⟩
    exact set
  · exact fun set => ⟨property, Property.mem_all property, value, set, rfl, rfl⟩

end Map

end PagedHtml.Style
