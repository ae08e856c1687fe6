/-
**Nesting: elements from the pieces of a document.**

Pieces are placed one after the other, the elements that are still open held from the innermost
outwards. The text of an entity is taken apart where it is referred to, and its pieces are placed
there: it may open elements that it leaves open, and close one that was open before it.
-/

import PagedHtml.Xml.Element
import PagedHtml.Xml.Inserting

namespace PagedHtml.Xml

structure OpenElement where
  /-- The name as it is written, which the end tag has to repeat. -/
  written : Name
  head : Head
  scope : Scope
  /-- What it holds so far, the last first. -/
  children : List Node

structure Nesting where
  /-- The elements that are open, the innermost first. -/
  opened : List OpenElement
  /-- What stands outside of open elements, the last first. -/
  outermost : List Node
  /-- The attributes since the last tag ended, and the name spaces that were declared among them. -/
  attributes : List (Name × String)
  scope : Scope
  count : Nat
  /-- Whether the text at hand, be it the document or an entity, has started an element. -/
  hasStarted : Bool
  references : Nat

/-- A step of nesting, which fails where a document is malformed. -/
abbrev Nester := StateT Nesting Option

namespace Nesting

def start : Nesting := ⟨[], [], [], [], 0, false, 0⟩

def place (node : Node) : Nester Unit :=
  modify fun nesting =>
    match nesting.opened with
    | [] => { nesting with outermost := node :: nesting.outermost }
    | inner :: outer =>
      { nesting with opened := { inner with children := node :: inner.children } :: outer }

/-! ### Tags -/

/-- Declares a name space for a qualifier. The qualifier `xml` is declared already, and neither its
name space nor the one that declares others can have another qualifier. -/
def declare (qualifier space : String) : Nester Unit := do
  let nesting ← get
  guard (space != declaringSpace && (qualifier == "xml") == (space == xmlSpace))
  if qualifier != "xml" then set { nesting with scope := nesting.scope ++ [(qualifier, space)] }

/-- Adds an attribute of a tag, or the name space that it declares. A qualifier is declared once in
a tag. -/
def addAttribute (entities : Entities) (room : Nat) (name : Name) (written : List Char) :
    Nester Unit := do
  let nesting ← get
  let (value, references) ← (attributeValue entities room written).run nesting.references
  let value := String.ofList value
  set { nesting with references }
  if name.qualifier = "xmlns" then
    guard (nesting.scope.lookup name.base).isNone
    declare name.base value
  else if name.base = "xmlns" then declare "" value
  else modify fun nesting => { nesting with attributes := nesting.attributes ++ [(name, value)] }

/-- Ends a tag: the name spaces that are declared there, and its attributes, of which no two have
the same name. -/
def endTag : Nester (Scope × List (SpacedName × String)) := do
  let nesting ← get
  let scope := nesting.scope ++ (nesting.opened.head?.map OpenElement.scope).getD []
  let attributes ← nesting.attributes.mapM fun (name, value) =>
    (scope.attributeName? name).map fun name => (name, value)
  guard (attributes.map Prod.fst).Nodup
  set { nesting with attributes := [], scope := [] }
  return (scope, attributes)

/-- Ends the tag that starts an element: its head, and the name spaces that are declared in it. -/
def endStartTag (written : Name) : Nester (Head × Scope) := do
  let (scope, attributes) ← endTag
  let name ← scope.elementName? written
  let place ← modifyGet fun nesting => (nesting.count, { nesting with count := nesting.count + 1 })
  return (⟨place, name, attributes⟩, scope)

/-- Starts an element, which is placed if it is empty. -/
def startElement (entities : Entities) (room : Nat) (written : Name)
    (attributes : List (Name × List Char)) (ending : Ending) : Nester Unit := do
  guard (written.qualifier != "xmlns")
  modify fun nesting => { nesting with hasStarted := true }
  attributes.forM fun (name, value) => addAttribute entities room name value
  match ending with
  | .brokenOff => pure ()
  | .empty =>
    let (head, _) ← endStartTag written
    place (.element head [])
  | .opened =>
    let (head, scope) ← endStartTag written
    modify fun nesting => { nesting with opened := ⟨written, head, scope, []⟩ :: nesting.opened }

/-- Closes the innermost open element. A text that has not started an element cannot close one. -/
def closeElement (written : Name) : Nester Unit := do
  guard (← get).hasStarted
  discard endTag
  let nesting ← get
  match nesting.opened with
  | [] => failure
  | inner :: outer =>
    guard (inner.written = written)
    set { nesting with opened := outer }
    place (.element inner.head inner.children.reverse)

/-! ### Pieces -/

/-- Places a part of a text, where `insert` places the text of an entity. -/
def placeSegment (entities : Entities) (room : Nat) (insert : List Char → Nester Unit) :
    Segment → Nester Unit
  | .characters chars => unless chars.isEmpty do place .leaf
  | .reference (.character _) => place .leaf
  | .reference (.entity name) => do
    let text ← entities.lookup name
    let before ← get
    let references ← countReference? room before.references
    set { before with references, hasStarted := false }
    insert text
    modify fun nesting =>
      { nesting with
        references := countAfter room nesting.references
        hasStarted := before.hasStarted }

/-- Places a piece, where `insert` places the text of an entity. -/
def placePiece (entities : Entities) (room : Nat) (insert : List Char → Nester Unit) :
    Piece → Nester Unit
  | .start name attributes ending => startElement entities room name attributes ending
  | .close name => closeElement name
  | .text segments => segments.forM (placeSegment entities room insert)
  | .aside => place .leaf

/-- Places pieces, where `room` levels of inserted text are left. -/
def placePieces (entities : Entities) : (room : Nat) → List Piece → Nester Unit
  | 0, pieces => pieces.forM (placePiece entities 0 fun _ => failure)
  | room + 1, pieces =>
    pieces.forM (placePiece entities (room + 1) fun text => do
      let (inner, _) ← content.run text
      placePieces entities room inner)

end Nesting

end PagedHtml.Xml
