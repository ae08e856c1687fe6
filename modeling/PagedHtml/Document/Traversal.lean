/-
**Walking up and down a document.**

A walk up follows the parents, and a walk down visits a node before its children; on a document in
which a node is its own ancestor neither ends, so both are asked for a number of steps (`ancestors`,
`visit`). `descendants` is the whole walk down where it ends: as deep as there are nodes, which on
such a document leaves nothing out.
-/

import PagedHtml.Document

namespace PagedHtml.Document

/-- The first `limit` nodes of the walk up that goes on with `current`. -/
def ascend (document : Document) : (limit : Nat) → (current : Option Nat) → List Nat
  | 0, _ => []
  | _ + 1, none => []
  | limit + 1, some id => id :: document.ascend limit (document.parent? id)

/-- The first `limit` ancestors of a node, the nearest first. -/
def ancestors (document : Document) (limit id : Nat) : List Nat :=
  document.ascend limit (document.parent? id)

/-- The first `limit` nodes of the walk down that goes on with the nodes `pending`. -/
def visit (document : Document) : (limit : Nat) → (pending : List Nat) → List Nat
  | 0, _ => []
  | _ + 1, [] => []
  | limit + 1, id :: pending => id :: document.visit limit (document.children id ++ pending)

/-- A node and what is below it, down to `depth` generations, each node before its children. -/
def listing (document : Document) : (depth id : Nat) → List Nat
  | 0, _ => []
  | depth + 1, id => id :: (document.children id).flatMap (document.listing depth)

/-- A node and everything below it, each node before its children. -/
def descendants (document : Document) (id : Nat) : List Nat := document.listing document.size id

/-- The elements at and below a node that have a tag, letter case aside. -/
def elementsByTag (document : Document) (scope : Nat) (tag : String) : List Nat :=
  (document.descendants scope).filter fun id =>
    (document.element? id).any fun data => Text.equalsIgnoringCase data.tag tag

end PagedHtml.Document
