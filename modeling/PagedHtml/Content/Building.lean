/-
**Building the content of a document.**

`Content.ofDocument` turns a node and what is below it into content. Comments become empty texts,
and so does an element that its style hides, with everything in it. Any other element gets one
style: that of its `style` attribute, overridden by what the host has computed. Anything else below
the node is an error, as is a computed value that the output has no value for. The first error in
the order of the document counts.

`Document.stylesheets` collects the style sheets at and below a node, in hidden elements too, and
`Document.build` does both.
-/

import PagedHtml.Content
import PagedHtml.Document.ComputedStyle
import PagedHtml.Document.Traversal
import PagedHtml.Style.Computed
import PagedHtml.Style.Declared

namespace PagedHtml

/-- Why there is no content. -/
inductive BuildError where
  /-- A node that is neither text nor comment nor element, or no node at all. -/
  | unsupportedKind (kind : String)
  /-- A computed value that the output has no value for. -/
  | invalidValue (failure : Style.InvalidValue)
  /-- An element that is inside of itself. -/
  | endless
  deriving DecidableEq, Repr

def BuildError.message : BuildError → String
  | unsupportedKind kind => "unsupported node kind: " ++ kind
  | invalidValue failure => failure.message
  | endless => "an element is inside of itself"

/-- A result, or the error that ended the work, and the diagnostics up to there. -/
abbrev Building := ExceptT BuildError Reported

namespace Content

/-! ### Visibility and style of an element -/

/-- Whether declarations hide an element: the last one for `display` decides. -/
def hides (declarations : List Css.Declaration) : Bool :=
  let isDisplay (declaration : Css.Declaration) :=
    Text.equalsIgnoringCase declaration.name "display"
  (declarations.reverse.find? isDisplay).any fun declaration => declaration.valueText == "none"

/-- Whether the text of a `style` attribute hides an element; text that cannot be read hides
nothing. -/
def attributeHides (text : String) : Bool :=
  match Css.parseDeclarations text with
  | .ok declarations => hides declarations
  | .error _ => false

/-- Whether an element shows nothing. Where the host computes styles, they alone decide. -/
def isHidden (computed : Option ComputedStyle) (id : Nat) (data : Element) : Bool :=
  match computed with
  | some computed => (computed.value? id "display").any fun value => Text.trim value == "none"
  | none => (data.attributes.get? "style").any attributeHides

/-- The style of the `style` attribute of an element. -/
def attributeStyle (data : Element) : Reported Style.Map :=
  match data.attributes.get? "style" with
  | some declared => Style.Map.ofAttribute declared (Text.lower data.tag)
  | none => pure Style.Map.empty

/-- A style with a property set as the host has computed it; where the host has nothing, or nothing
that is to be set, the style stays as it is. -/
def addComputed (computed : ComputedStyle) (id : Nat) (style : Style.Map)
    (property : Style.Property) : Except Style.InvalidValue Style.Map :=
  match computed.value? id property.cssName with
  | none => .ok style
  | some raw =>
    if raw = "" then .ok style
    else
      (Style.ofComputed property .element raw).map fun value =>
        match value with
        | some value => style.insert property (.text value)
        | none => style

/-- A style overridden by what the host has computed. -/
def withComputed (computed : Option ComputedStyle) (id : Nat) (style : Style.Map) :
    Except Style.InvalidValue Style.Map :=
  match computed with
  | none => .ok style
  | some computed => Style.Property.computed.foldlM (addComputed computed id) style

def elementStyle (computed : Option ComputedStyle) (id : Nat) (data : Element) :
    Building Style.Map := do
  let style ← attributeStyle data
  match withComputed computed id style with
  | .ok style => return style
  | .error failure => throw (.invalidValue failure)

/-! ### The tree -/

/-- The content of a node, down to `depth` generations. -/
def convert (document : Document) (computed : Option ComputedStyle) :
    (depth id : Nat) → Building Content
  | 0, _ => throw .endless
  | depth + 1, id =>
    match document.get? id with
    | none => throw (.unsupportedKind "missing")
    | some node =>
      match node.kind with
      | .text content => return text content
      | .comment _ => return blank
      | .element data =>
        if isHidden computed id data then return blank
        else do
          let style ← elementStyle computed id data
          let children ← node.children.mapM (convert document computed depth)
          return element ⟨Text.lower data.tag, data.attributes, style, 0⟩ (countSiblings children)
      | kind => throw (.unsupportedKind kind.label)

/-- The content of a node. A document has no more generations than nodes, unless one of them is
inside of itself. -/
def ofDocument (document : Document) (computed : Option ComputedStyle) (root : Nat) :
    Building Content :=
  convert document computed (document.size + 1) root

end Content

namespace Document

/-! ### Style sheets -/

/-- The text of a `style` element: its texts, without the blanks around them, line by line. -/
def stylesheetText (document : Document) (id : Nat) : String :=
  "\n".intercalate (((document.children id).filterMap document.text?).map Text.trim)

/-- The style sheets at and below a node. -/
def stylesheets (document : Document) (root : Nat) : Reported (List Style.Table) :=
  let sheets := (document.elementsByTag root "style").map document.stylesheetText
  (sheets.filter (· ≠ "")).mapM Style.Table.ofText

/-- The style sheets at and below a node, and its content. -/
def build (document : Document) (computed : Option ComputedStyle) (root : Nat) :
    Building (List Style.Table × Content) := do
  let sheets ← document.stylesheets root
  let content ← Content.ofDocument document computed root
  return (sheets, content)

end Document

end PagedHtml
