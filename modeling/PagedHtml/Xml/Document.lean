/-
**Documents: the outermost element of an XML text.**

`root?` gives it if the text is a document: one element with all that it holds, comments and
instructions around it, and before it perhaps a declaration of the version and one of the type.
-/

import PagedHtml.Xml.Nesting

namespace PagedHtml.Xml

open Text (Reader)
open Text.Reader

/-- The pieces of the outermost element. -/
def outermost : Reader (List Piece) := do
  expect "<"
  let (name, attributes, ending) ← startTag
  let inner ← if ending = .opened then content else pure []
  return .start name attributes ending :: inner

/-- A whole document, before which a byte order mark may stand: the entities that it declares, and
the pieces of its outermost element. -/
def document : Reader (Entities × List Piece) := do
  discard (accept "\uFEFF")
  if ← sees "<?xml " then
    expect "<?xml"
    Prolog.version
  asides
  let entities ← if ← accept "<!DOCTYPE" then Prolog.type else pure []
  asides
  let pieces ← outermost
  asides
  guard (← atEnd)
  return (entities, pieces)

/-- The outermost element of a document, of which no element is left open. Of several that the text
of entities may bring about it is the first. -/
def root? (text : String) : Option (Head × List Node) := do
  let ((entities, pieces), _) ← document.run text.toList
  let (_, nesting) ← (Nesting.placePieces entities deepest pieces).run Nesting.start
  guard nesting.opened.isEmpty
  nesting.outermost.reverse.findSome? fun node =>
    match node with
    | .element head children => some (head, children)
    | .leaf => none

end PagedHtml.Xml
