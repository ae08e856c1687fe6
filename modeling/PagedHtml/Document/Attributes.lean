/-
**Attributes: the named values of an element.**

A name has one value: a later one replaces it (`get?_insert`). The attributes are listed by name.
-/

import PagedHtml.Text.Ascii

namespace PagedHtml

structure Attributes where
  entries : List (String × String)
  deriving DecidableEq, Repr

namespace Attributes

def empty : Attributes := ⟨[]⟩

instance : Inhabited Attributes := ⟨empty⟩

/-- Sets an attribute in a list of attributes by name. -/
def insertEntry (name value : String) : List (String × String) → List (String × String)
  | [] => [(name, value)]
  | (other, old) :: rest =>
    if name = other then (name, value) :: rest
    else if name < other then (name, value) :: (other, old) :: rest
    else (other, old) :: insertEntry name value rest

def insert (attributes : Attributes) (name value : String) : Attributes :=
  ⟨insertEntry name value attributes.entries⟩

/-- The attributes of a list, the later of which win. -/
def ofList (entries : List (String × String)) : Attributes :=
  entries.foldl (fun attributes (name, value) => attributes.insert name value) empty

def get? (attributes : Attributes) (name : String) : Option String :=
  attributes.entries.lookup name

/-- The value of an attribute, or nothing at all. -/
def getD (attributes : Attributes) (name : String) : String := (attributes.get? name).getD ""

def id? (attributes : Attributes) : Option String := attributes.get? "id"

/-- The words of the `class` attribute, in order. -/
def classWords (attributes : Attributes) : List String := Text.words (attributes.getD "class")

def hasClass (attributes : Attributes) (name : String) : Bool := attributes.classWords.contains name

/-- The classes of the element, each once, by name. -/
def classes (attributes : Attributes) : List String := attributes.classWords.eraseDups.mergeSort

/-- The attribute that was set last has the value it was set to. -/
theorem get?_insert (attributes : Attributes) (name other value : String) :
    (attributes.insert name value).get? other =
      if other = name then some value else attributes.get? other := by
  obtain ⟨entries⟩ := attributes
  simp only [insert, get?]
  induction entries with
  | nil =>
    by_cases same : other = name <;>
      simp [insertEntry, List.lookup_cons, same, beq_eq_false_iff_ne.2]
  | cons entry rest ih =>
    obtain ⟨first, old⟩ := entry
    simp only [insertEntry]
    by_cases same : name = first
    · subst same
      by_cases here : other = name <;> simp [List.lookup_cons, here, beq_eq_false_iff_ne.2]
    · by_cases less : name < first
      · by_cases here : other = name <;>
          simp [same, less, List.lookup_cons, here, beq_eq_false_iff_ne.2]
      · by_cases here : other = first
        · subst here
          simp [same, less, Ne.symm same]
        · simp [same, less, List.lookup_cons, here, ih, beq_eq_false_iff_ne.2]

end Attributes

end PagedHtml
