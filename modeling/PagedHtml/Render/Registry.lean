/-
**Renderers, and the registry that finds one for each tag.**

A renderer turns an element into a primitive. It sees the element, the elements around it and the
whole content by number, the styles that apply, the style sheets and images of the document, and
what is in the element, already rendered.
-/

import PagedHtml.Content.Outline
import PagedHtml.Image
import PagedHtml.Primitive
import PagedHtml.Style.Table
import PagedHtml.Tag

namespace PagedHtml.Render

/-- Why an element cannot be rendered. -/
inductive RenderError where
  /-- The tag is outside of the vocabulary, or has no renderer. -/
  | unknownTag (tag : String)
  | cellOutsideTable (tag : String)
  deriving DecidableEq, Repr

def RenderError.message : RenderError → String
  | unknownTag tag => "no renderer registered for <" ++ tag ++ ">"
  | cellOutsideTable tag => "<" ++ tag ++ "> element rendered outside of a table"

/-- What a renderer sees of an element. -/
structure Context where
  /-- The whole content, by number. -/
  outline : Outline
  /-- The number of the element. -/
  node : Nat
  element : StyledElement
  /-- The numbers of what is in it. -/
  childIds : List Nat
  /-- The elements around it, the innermost first. -/
  around : List StyledElement
  /-- The styles that apply: defaults, matching rules, then the element's own. -/
  style : List Style.Map
  stylesheets : List Style.Table
  images : ImageStore
  /-- What is in the element, or the first error there, which a renderer that drops it ignores. -/
  children : Except RenderError (List Primitive)

def Context.parent? (context : Context) : Option StyledElement := context.around.head?

/-- What turns an element into a primitive. -/
abbrev Renderer := Context → Except RenderError Primitive

structure Registry where
  renderer? : Tag → Option Renderer

namespace Registry

def empty : Registry := ⟨fun _ => none⟩

instance : Inhabited Registry := ⟨empty⟩

/-- The registry with the renderer of a tag replaced. -/
def register (registry : Registry) (tag : Tag) (renderer : Renderer) : Registry :=
  ⟨fun t => if t = tag then some renderer else registry.renderer? t⟩

def dispatch (registry : Registry) (context : Context) : Except RenderError Primitive :=
  match Tag.ofName? context.element.tag >>= registry.renderer? with
  | some renderer => renderer context
  | none => .error (.unknownTag context.element.tag)

end Registry

end PagedHtml.Render
