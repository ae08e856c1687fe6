/-
**Vector images: the pixels they take.**

`rasterize` turns a vector image into an image of pixels, of which only the frame is made here:
drawing is left to the layout engine. The extent is given by the outermost element, in each
direction by its own attribute or else by the view box.
-/

import PagedHtml.Encoding.Utf8
import PagedHtml.Image.Png
import PagedHtml.Image.Svg.Length
import PagedHtml.Image.Svg.Tree
import PagedHtml.Xml.Document

namespace PagedHtml.Image.Svg

/-! ### The extent -/

/-- Whether an image has a header for its size and a row of it, at four bytes for each pixel, takes
less than `2 ^ 31` bytes. -/
def canHold (width height : Nat) : Bool :=
  4 * width < 0x80000000 && height < 0x100000000

/-- The width and height of a vector image in pixels, if it has any. Without attributes for them
they are those of the view box. -/
def size? (text : String) : Option (Nat × Nat) := do
  let (head, children) ← Xml.root? text
  guard (head.name = ⟨some space, "svg"⟩ && reachesEnds (.element head children))
  let box := (attribute? head "viewBox" >>= ViewBox.ofText?).getD .standard
  let length (base : String) := (attribute? head base >>= Length.ofText?).getD .whole
  let width ← (length "width").measure? box.width
  let height ← (length "height").measure? box.height
  guard (canHold width.ceil height.ceil)
  return (width.ceil, height.ceil)

/-- The image of pixels for a vector image, or why there is none. -/
def rasterize (bytes : List UInt8) : Except String (List UInt8) :=
  match Encoding.ofUtf8? bytes with
  | none => .error "the text is not UTF-8"
  | some text =>
    match size? text with
    | some (width, height) => .ok (Png.frame width height)
    | none => .error "the document is malformed or has no size"

end PagedHtml.Image.Svg
