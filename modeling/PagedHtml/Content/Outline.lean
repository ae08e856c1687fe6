/-
**An outline: content by number.**

The texts and elements of a content are numbered in the order of the text, an element before what is
in it. An outline lists them by number, and an element there knows the numbers of its children and
of the element around it. A text knows no element around it.
-/

import PagedHtml.Content

namespace PagedHtml

inductive Outline.Entry where
  | text (content : String)
  | element (data : StyledElement) (parent : Option Nat) (children : List Nat)

/-- Content by number. -/
structure Outline where
  entries : Array Outline.Entry

namespace Content

/-- The numbers of siblings, the first of which has the number `id`. -/
def siblingIds (id : Nat) : List Content → List Nat
  | [] => []
  | first :: rest => id :: siblingIds (id + first.size) rest

mutual

/-- The entries of content that has the number `id` and stands in the element `parent`. -/
def entries (parent : Option Nat) (id : Nat) : Content → List Outline.Entry
  | text content => [.text content]
  | element data children =>
    .element data parent (siblingIds (id + 1) children) :: entriesAll (some id) (id + 1) children

def entriesAll (parent : Option Nat) (id : Nat) : List Content → List Outline.Entry
  | [] => []
  | first :: rest => entries parent id first ++ entriesAll parent (id + first.size) rest

end

mutual

/-- The numbering leaves nothing out. -/
theorem length_entries (parent : Option Nat) (id : Nat) (content : Content) :
    (content.entries parent id).length = content.size := by
  cases content with
  | text => rfl
  | element data children => simp [entries, size, length_entriesAll]

theorem length_entriesAll (parent : Option Nat) (id : Nat) (siblings : List Content) :
    (entriesAll parent id siblings).length = sizeAll siblings := by
  cases siblings with
  | nil => rfl
  | cons first rest => simp [entriesAll, sizeAll, length_entries, length_entriesAll]

end

def outline (content : Content) : Outline := ⟨(content.entries none 0).toArray⟩

end Content

namespace Outline

/-- The number of the outermost text or element. -/
def root : Nat := 0

def size (outline : Outline) : Nat := outline.entries.size

def isEmpty (outline : Outline) : Bool := outline.entries.isEmpty

def get? (outline : Outline) (id : Nat) : Option Entry := outline.entries[id]?

def element? (outline : Outline) (id : Nat) : Option StyledElement :=
  match outline.get? id with
  | some (.element data _ _) => some data
  | _ => none

def text? (outline : Outline) (id : Nat) : Option String :=
  match outline.get? id with
  | some (.text content) => some content
  | _ => none

/-- The numbers of what is in an element. -/
def children (outline : Outline) (id : Nat) : List Nat :=
  match outline.get? id with
  | some (.element _ _ children) => children
  | _ => []

/-- The element around an element. -/
def parent? (outline : Outline) (id : Nat) : Option Nat :=
  match outline.get? id with
  | some (.element _ parent _) => parent
  | _ => none

/-- At most `limit` elements of the walk up that goes on with `current`. -/
def ascend (outline : Outline) : (limit : Nat) → (current : Option Nat) → List Nat
  | 0, _ => []
  | _ + 1, none => []
  | limit + 1, some id => id :: outline.ascend limit (outline.parent? id)

/-- The elements around an element, the nearest first. -/
def ancestors (outline : Outline) (id : Nat) : List Nat :=
  outline.ascend outline.size (outline.parent? id)

/-- The chain of an element: the element and those around it, the innermost first. -/
def chain (outline : Outline) (id : Nat) : List StyledElement :=
  (id :: outline.ancestors id).filterMap outline.element?

/-- The nearest element with a tag, the one asked about included. -/
def closest? (outline : Outline) (id : Nat) (tag : String) : Option Nat :=
  (id :: outline.ancestors id).find? fun candidate =>
    (outline.element? candidate).any fun data => data.tag == tag

end Outline

end PagedHtml
