/-
**The content of a document: texts, and elements with their styles.**

Content is a tree. An element knows its tag in small letters, its attributes, its own style and how
many elements with the same tag stand before it among its siblings. Where content has to be looked
at from the inside, an element comes with the chain of the elements around it, the innermost first.
-/

import PagedHtml.Document.Attributes
import PagedHtml.Reference
import PagedHtml.Style.Map

namespace PagedHtml

/-- An element with its style, its children aside. -/
structure StyledElement where
  tag : String
  attributes : Attributes
  style : Style.Map
  /-- How many elements with the same tag stand before it among its siblings. -/
  indexOfType : Nat

/-- The content of a document. -/
inductive Content where
  | text (content : String)
  | element (data : StyledElement) (children : List Content)

namespace Content

instance : Inhabited Content := ⟨.text ""⟩

/-- Content that shows nothing. -/
def blank : Content := text ""

def element? : Content → Option StyledElement
  | text _ => none
  | element data _ => some data

def children : Content → List Content
  | text _ => []
  | element _ children => children

/-! ### Siblings -/

/-- Siblings with their elements counted by tag; `before` holds the tags of the siblings before
them. -/
def countFrom (before : List String) : List Content → List Content
  | [] => []
  | text content :: rest => text content :: countFrom before rest
  | element data children :: rest =>
    element { data with indexOfType := before.count data.tag } children ::
      countFrom (data.tag :: before) rest

def countSiblings (siblings : List Content) : List Content := countFrom [] siblings

/-! ### Size and order -/

mutual

/-- The number of texts and elements. -/
def size : Content → Nat
  | text _ => 1
  | element _ children => sizeAll children + 1

def sizeAll : List Content → Nat
  | [] => 0
  | first :: rest => size first + sizeAll rest

end

theorem sizeAll_append (first second : List Content) :
    sizeAll (first ++ second) = sizeAll first + sizeAll second := by
  induction first with
  | nil => exact (Nat.zero_add _).symm
  | cons content first ih => rw [List.cons_append, sizeAll, sizeAll, ih, Nat.add_assoc]

mutual

/-- All elements, each before those in it. -/
def elements : Content → List StyledElement
  | text _ => []
  | element data children => data :: elementsAll children

def elementsAll : List Content → List StyledElement
  | [] => []
  | first :: rest => elements first ++ elementsAll rest

end

/-! ### Images -/

/-- The reference of an image element. -/
def imageSource (data : StyledElement) : String := data.attributes.getD "src"

/-- The reference of an image that is not on the web. -/
def localSource? (data : StyledElement) : Option String :=
  if data.tag = "img" ∧ Reference.isRemote (imageSource data) = false then some (imageSource data)
  else none

/-- Each reference of an image that is not on the web, in the order in which they first come in the
contents that wait for the walk; `seen` holds those that are already listed. -/
def imageSourcesFrom (seen : List String) : List Content → List String
  | [] => []
  | text _ :: rest => imageSourcesFrom seen rest
  | element data children :: rest =>
    match localSource? data with
    | none => imageSourcesFrom seen (children ++ rest)
    | some source =>
      if source ∈ seen then imageSourcesFrom seen (children ++ rest)
      else source :: imageSourcesFrom (source :: seen) (children ++ rest)
termination_by waiting => sizeAll waiting
decreasing_by all_goals simp only [sizeAll, size, sizeAll_append]; omega

/-- Each reference of an image that is not on the web, in the order in which they first come. -/
def imageSources (content : Content) : List String := imageSourcesFrom [] [content]

end Content

end PagedHtml
