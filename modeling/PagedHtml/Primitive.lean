/-
**Primitives: what a layout engine gets.**

Containers, runs of text, literal texts, links, images and vector graphics. Most of them carry a
list of styles, the later of which override the earlier ones.
-/

import PagedHtml.Style.Map

namespace PagedHtml

inductive ImageSource where
  /-- An address on the web, which the layout engine fetches. -/
  | url (address : String)
  | data (bytes : List UInt8)
  deriving DecidableEq, Repr

inductive Shape where
  | group (transform : String) (children : List Shape)
  | polygon (fill points : String)

/-- A piece of what a layout engine gets. -/
inductive Primitive where
  | empty
  /-- A container; one that does not wrap stays on a page. -/
  | view (style : List Style.Map) (wrap : Bool) (children : List Primitive)
  | text (style : List Style.Map) (children : List Primitive)
  | literal (text : String)
  | link (style : List Style.Map) (target : String) (children : List Primitive)
  | image (style : List Style.Map) (source : ImageSource)
  | vector (style : List Style.Map) (shapes : List Shape)

namespace Primitive

instance : Inhabited Primitive := ⟨empty⟩

/-- A container that may be split across pages. -/
def container (style : List Style.Map) (children : List Primitive) : Primitive :=
  view style true children

/-- A container that stays on a page. -/
def unbreakable (style : List Style.Map) (children : List Primitive) : Primitive :=
  view style false children

def isEmpty : Primitive → Bool
  | empty => true
  | _ => false

/-- What is in a container, a run of text or a link. -/
def children : Primitive → List Primitive
  | view _ _ children | text _ children | link _ _ children => children
  | empty | literal _ | image _ _ | vector _ _ => []

def style : Primitive → List Style.Map
  | view style _ _ | text style _ | link style _ _ | image style _ | vector style _ => style
  | empty | literal _ => []

mutual

/-- The literal texts in a primitive, one after another. -/
def textContent : Primitive → String
  | literal content => content
  | view _ _ children | text _ children | link _ _ children => textContentAll children
  | empty | image _ _ | vector _ _ => ""

def textContentAll : List Primitive → String
  | [] => ""
  | first :: rest => textContent first ++ textContentAll rest

end

mutual

/-- A primitive and all in it, each before what is in it. -/
def listing : Primitive → List Primitive
  | view style wrap children => view style wrap children :: listingAll children
  | text style children => text style children :: listingAll children
  | link style target children => link style target children :: listingAll children
  | other => [other]

def listingAll : List Primitive → List Primitive
  | [] => []
  | first :: rest => listing first ++ listingAll rest

end

end Primitive

end PagedHtml
