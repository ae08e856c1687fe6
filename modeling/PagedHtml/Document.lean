/-
**The document of a host: nodes with numbers.**

Nodes are numbered in the order in which they are made, and node `0` is the document itself. A node
lists its children and knows its parent. Nothing keeps a node from having several places, or from
being its own ancestor: `appendChild` adds a place and makes the new parent the parent, whatever was
there before.
-/

import PagedHtml.Document.Attributes

namespace PagedHtml

structure Element where
  tag : String
  attributes : Attributes
  deriving DecidableEq, Repr

inductive NodeKind where
  | document
  | doctype (name : String)
  | element (data : Element)
  | text (content : String)
  | comment (content : String)
  deriving DecidableEq, Repr

def NodeKind.label : NodeKind → String
  | document => "document"
  | doctype _ => "doctype"
  | element _ => "element"
  | text _ => "text"
  | comment _ => "comment"

structure Node where
  kind : NodeKind
  /-- The node that it was last appended to. -/
  parent : Option Nat
  /-- What was appended to it, in order. -/
  children : List Nat
  deriving DecidableEq, Repr

structure Document where
  nodes : Array Node
  deriving DecidableEq, Repr

namespace Document

/-- The number of the document itself. -/
def root : Nat := 0

/-- A document without anything in it. -/
def blank : Document := ⟨#[⟨.document, none, []⟩]⟩

instance : Inhabited Document := ⟨blank⟩

/-! ### Looking -/

def get? (document : Document) (id : Nat) : Option Node := document.nodes[id]?

def size (document : Document) : Nat := document.nodes.size

/-- Whether there are no nodes, not even the document itself. -/
def isEmpty (document : Document) : Bool := document.nodes.isEmpty

def parent? (document : Document) (id : Nat) : Option Nat := document.get? id >>= Node.parent

def children (document : Document) (id : Nat) : List Nat :=
  match document.get? id with
  | some node => node.children
  | none => []

def element? (document : Document) (id : Nat) : Option Element :=
  match document.get? id with
  | some ⟨.element data, _, _⟩ => some data
  | _ => none

def text? (document : Document) (id : Nat) : Option String :=
  match document.get? id with
  | some ⟨.text content, _, _⟩ => some content
  | _ => none

def attribute? (document : Document) (id : Nat) (name : String) : Option String :=
  document.element? id >>= fun data => data.attributes.get? name

/-- The first element in the document itself. -/
def documentElement? (document : Document) : Option Nat :=
  (document.children root).find? fun id => (document.element? id).isSome

/-! ### Building -/

/-- Makes a node without a place: its number, and the document with it. -/
def alloc (document : Document) (kind : NodeKind) : Nat × Document :=
  (document.size, ⟨document.nodes.push ⟨kind, none, []⟩⟩)

/-- Appends a node to another one. Numbers without a node are ignored. -/
def appendChild (document : Document) (parent child : Nat) : Document :=
  if parent < document.size ∧ child < document.size then
    let added := document.nodes.modify parent fun node =>
      { node with children := node.children ++ [child] }
    ⟨added.modify child fun node => { node with parent := some parent }⟩
  else document

/-- Makes a node and appends it: its number, and the document with it. -/
def append (document : Document) (parent : Nat) (kind : NodeKind) : Nat × Document :=
  let (id, document) := document.alloc kind
  (id, document.appendChild parent id)

/-! ### What the operations change -/

/-- No operation removes a node. -/
theorem size_alloc (document : Document) (kind : NodeKind) :
    (document.alloc kind).2.size = document.size + 1 := by
  simp [alloc, size]

/-- Appending makes no node. -/
theorem size_appendChild (document : Document) (parent child : Nat) :
    (document.appendChild parent child).size = document.size := by
  unfold appendChild
  split <;> simp [size]

variable {document : Document} {id parent child : Nat}

theorem parent?_eq (document : Document) (id : Nat) :
    document.parent? id = (document.get? id).bind Node.parent := rfl

theorem children_eq (document : Document) (id : Nat) :
    document.children id = ((document.get? id).map Node.children).getD [] := by
  rw [children]
  cases document.get? id <;> rfl

theorem get?_of_ge (beyond : document.size ≤ id) : document.get? id = none :=
  Array.getElem?_eq_none beyond

theorem get?_alloc (document : Document) (kind : NodeKind) (id : Nat) :
    (document.alloc kind).2.get? id =
      if id = document.size then some ⟨kind, none, []⟩ else document.get? id :=
  Array.getElem?_push

/-- A new node lies in no other one. -/
theorem parent?_alloc (document : Document) (kind : NodeKind) (id : Nat) :
    (document.alloc kind).2.parent? id = document.parent? id := by
  rw [parent?_eq, parent?_eq, get?_alloc]
  split
  · next new =>
    rw [get?_of_ge (Nat.le_of_eq new.symm)]
    rfl
  · rfl

/-- There is nothing in a new node. -/
theorem children_alloc (document : Document) (kind : NodeKind) (id : Nat) :
    (document.alloc kind).2.children id = document.children id := by
  rw [children_eq, children_eq, get?_alloc]
  split
  · next new =>
    rw [get?_of_ge (Nat.le_of_eq new.symm)]
    rfl
  · rfl

/-- Calls with numbers that have no node change nothing. -/
theorem appendChild_of_outside (outside : ¬ (parent < document.size ∧ child < document.size)) :
    document.appendChild parent child = document :=
  if_neg outside

theorem get?_appendChild (above : parent < document.size) (below : child < document.size)
    (id : Nat) :
    (document.appendChild parent child).get? id = (document.get? id).map fun node =>
      { node with
        parent := if child = id then some parent else node.parent
        children := if parent = id then node.children ++ [child] else node.children } := by
  rw [appendChild, if_pos ⟨above, below⟩, get?, get?, Array.getElem?_modify, Array.getElem?_modify]
  cases document.nodes[id]? with
  | none => simp
  | some node =>
    by_cases isChild : child = id <;> by_cases isParent : parent = id <;>
      simp [isChild, isParent]

theorem exists_get?_of_lt (inside : id < document.size) : ∃ node, document.get? id = some node :=
  ⟨_, Array.getElem?_eq_getElem inside⟩

theorem parent?_appendChild (above : parent < document.size) (below : child < document.size)
    (id : Nat) :
    (document.appendChild parent child).parent? id =
      if child = id then some parent else document.parent? id := by
  rw [parent?_eq, parent?_eq, get?_appendChild above below]
  by_cases isChild : child = id
  · subst isChild
    obtain ⟨node, known⟩ := exists_get?_of_lt below
    simp [known]
  · cases document.get? id <;> simp [isChild]

theorem children_appendChild (above : parent < document.size) (below : child < document.size)
    (id : Nat) :
    (document.appendChild parent child).children id =
      if parent = id then document.children id ++ [child] else document.children id := by
  rw [children_eq, children_eq, get?_appendChild above below]
  by_cases isParent : parent = id
  · subst isParent
    obtain ⟨node, known⟩ := exists_get?_of_lt above
    simp [known]
  · cases document.get? id <;> simp [isParent]

end Document

end PagedHtml
