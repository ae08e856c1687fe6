/-
**The standard renderers.**

Blocks become containers and inline elements runs of text, with the styles that apply to them and
what is in them. List items, line breaks, links, images and vector graphics have a rendering of
their own, and so have tables (`PagedHtml.Render.Table`). `Registry.standard` has a renderer for
every tag.
-/

import PagedHtml.Render.Table

namespace PagedHtml.Render

/-- Nothing, whatever is in the element. -/
def nothing : Renderer := fun _ => .ok .empty

def block : Renderer := fun context => do
  return .container context.style (← context.children)

def inlineRun : Renderer := fun context => do
  return .text context.style (← context.children)

/-- A line break: a container that holds a blank run of text and stays on a page. -/
def lineBreak : Renderer := fun context =>
  .ok (.unbreakable context.style [.text [] [.literal " "]])

/-- What stands before a list item without a number. -/
def bullet : String := "•"

/-- What stands before a list item: its number in a numbered list, and a bullet anywhere else. -/
def marker (context : Context) : String :=
  if context.parent?.any fun parent => parent.tag == Tag.numberedList.name then
    toString (context.element.indexOfType + 1) ++ "."
  else bullet

/-- A list item: its marker, and next to it what is in it. -/
def listItem : Renderer := fun context => do
  let children ← context.children
  return .unbreakable context.style
    [.container [] [.text [] [.literal (marker context)]], .text [] children]

/-- A link; one without a target leads nowhere. -/
def link : Renderer := fun context => do
  return .link context.style (context.element.attributes.getD "href") (← context.children)

/-- An image: one on the web by its address, any other one by its bytes, or nothing if there are
none. -/
def image : Renderer := fun context =>
  let source := Content.imageSource context.element
  if Reference.isRemote source then .ok (.image context.style (.url source))
  else
    match context.images.get? source with
    | some bytes => .ok (.image context.style (.data bytes))
    | none => .ok .empty

/-- The corners of the shape that stands for a vector graphic. -/
def corners : List (Nat × Nat) :=
  [(69, 18), (82, 8), (99, 3), (118, 5), (135, 12), (149, 21), (156, 13), (165, 9), (177, 13),
   (183, 28), (180, 50), (164, 91), (155, 107), (154, 114), (151, 121), (141, 127), (139, 136),
   (155, 206), (157, 251), (126, 342), (133, 357), (128, 376), (83, 376), (75, 368), (67, 350),
   (61, 350), (53, 369), (4, 369), (2, 361), (5, 354), (12, 342), (16, 321), (4, 257), (4, 244),
   (7, 218), (9, 179), (26, 127), (43, 93), (32, 77), (30, 70), (24, 67), (16, 49), (17, 35),
   (18, 23), (30, 12), (40, 7), (53, 7), (62, 12)]

/-- Corners as text, with a space before each. -/
def pointsText (corners : List (Nat × Nat)) : String :=
  String.join (corners.map fun (x, y) => " " ++ toString x ++ "," ++ toString y)

/-- A vector graphic: always the same shape, whatever is in the element. -/
def vector : Renderer := fun context =>
  .ok (.vector context.style
    [.group "scale(1) translate(100,10)" [.polygon "#f2cc99" (pointsText corners)]])

def standard (tag : Tag) : Renderer :=
  match tag with
  | .anchor => link
  | .lineBreak => lineBreak
  | .listItem => listItem
  | .image => image
  | .vector => vector
  | .table => table
  | .tableRow => row
  | .dataCell | .headerCell => cell
  | tag =>
    match tag.category with
    | .metadata => nothing
    | .inline => inlineRun
    | .block | .special => block

/-- The registry with the standard renderer of every tag. -/
def Registry.standard : Registry := ⟨fun tag => some (Render.standard tag)⟩

end PagedHtml.Render
