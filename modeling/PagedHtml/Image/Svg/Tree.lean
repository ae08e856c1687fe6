/-
**The elements of a vector image, and how deep they lie.**

Elements count if they are of the vocabulary of vector images; what is inside of any other is not
looked at. A `use` element stands for the element that it links to, so the tree that is drawn may be
deeper than the document, or without end: `reachesEnds` says whether it has an end after `deepest`
levels at most.
-/

import PagedHtml.Xml.Element

namespace PagedHtml.Image.Svg

def space : String := "http://www.w3.org/2000/svg"

def linkSpace : String := "http://www.w3.org/1999/xlink"

def vocabulary : List String :=
  ["a", "circle", "clipPath", "defs", "ellipse", "feBlend", "feColorMatrix", "feComponentTransfer",
    "feComposite", "feConvolveMatrix", "feDiffuseLighting", "feDisplacementMap", "feDistantLight",
    "feDropShadow", "feFlood", "feFuncA", "feFuncB", "feFuncG", "feFuncR", "feGaussianBlur",
    "feImage", "feMerge", "feMergeNode", "feMorphology", "feOffset", "fePointLight",
    "feSpecularLighting", "feSpotLight", "feTile", "feTurbulence", "filter", "g", "image", "line",
    "linearGradient", "marker", "mask", "path", "pattern", "polygon", "polyline", "radialGradient",
    "rect", "stop", "style", "svg", "switch", "symbol", "text", "textPath", "tref", "tspan", "use"]

/-- The name of an element, if it is one of a vector image. -/
def elementName? (head : Xml.Head) : Option String :=
  if head.name.space = some space && vocabulary.contains head.name.base then some head.name.base
  else none

/-- The value of an attribute, which may be in one of three name spaces or in none. -/
def attribute? (head : Xml.Head) (base : String) : Option String :=
  let counts (attributeSpace : Option String) : Bool :=
    attributeSpace.all [space, linkSpace, Xml.xmlSpace].contains
  (head.attributes.find? fun (name, _) => name.base == base && counts name.space).map Prod.snd

/-! ### Links -/

abbrev Elements := List (Xml.Head × List Xml.Node)

/-- The identifier that a link within the document names. -/
def identifier? (link : String) : Option String :=
  match link.toList.dropWhile Xml.isSpace with
  | '#' :: rest =>
    let name := rest.takeWhile (· != ' ')
    if !name.isEmpty && (rest.dropWhile (· != ' ')).all Xml.isSpace then some (String.ofList name)
    else none
  | _ => none

/-- The element that another one links to. -/
def target? (elements : Elements) (head : Xml.Head) : Option (Xml.Head × List Xml.Node) := do
  let link ← (head.attribute? ⟨some linkSpace, "href"⟩).or (head.attribute? ⟨none, "href"⟩)
  let identifier ← identifier? link
  elements.find? fun (other, _) => other.attribute? ⟨none, "id"⟩ = some identifier

/-- Whether an element links back to a `use` element or to what that links to. -/
def linksBack (elements : Elements) (user target other : Xml.Head) : Bool :=
  other.name = ⟨some space, "use"⟩ &&
    (target? elements other).any fun (second, _) =>
      second.place = user.place || second.place = target.place

/-! ### Depth -/

/-- The number of levels below the outermost element. -/
def deepest : Nat := 1024

/-- Whether what is drawn for a node has less than `room` levels. `origin` is the place of the `use`
element by which the node was reached, or else that of the outermost element. Links to that element
are not followed, nor are those to elements that link back. -/
def endsWithin (elements : Elements) : (room origin : Nat) → Xml.Node → Bool
  | 0, _, _ => false
  | _, _, .leaf => true
  | room + 1, origin, .element head children =>
    match elementName? head with
    | none | some "style" | some "text" => true
    | some "use" =>
      match target? elements head with
      | none => true
      | some (target, inner) =>
        let isSkipped := target.place = head.place || target.place = origin ||
          (elementName? target).isNone ||
          (inner.flatMap Xml.Node.elements).any fun (other, _) =>
            linksBack elements head target other
        match room with
        | 0 => isSkipped
        | room + 1 => isSkipped || endsWithin elements room head.place (.element target inner)
    | some _ => children.all (endsWithin elements room origin)

/-- Whether what is drawn for the outermost element has an end. -/
def reachesEnds (root : Xml.Node) : Bool :=
  let elements := root.elements
  endsWithin elements (deepest + 1) (elements.head?.elim 0 (·.1.place)) root

end PagedHtml.Image.Svg
