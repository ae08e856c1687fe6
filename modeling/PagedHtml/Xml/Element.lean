/-
**Elements, with the name spaces of their names resolved.**

A `Scope` holds the name spaces that are declared for qualifiers. It resolves the names of elements
and of attributes, for which the lack of a qualifier does not mean the same.
-/

import PagedHtml.Xml.Name

namespace PagedHtml.Xml

/-- A name in a name space, if it is in one. -/
structure SpacedName where
  space : Option String
  base : String
  deriving DecidableEq, Repr

/-- The start of an element: its place among the elements of the document, its name, and its
attributes. -/
structure Head where
  place : Nat
  name : SpacedName
  attributes : List (SpacedName × String)
  deriving DecidableEq, Repr

def Head.attribute? (head : Head) (name : SpacedName) : Option String :=
  head.attributes.lookup name

inductive Node where
  | element (head : Head) (children : List Node)
  /-- A text, a comment or an instruction. -/
  | leaf
  deriving Repr

/-- The elements at and below a node, in the order of the document. -/
def Node.elements : Node → List (Head × List Node)
  | .element head children => (head, children) :: children.flatMap elements
  | .leaf => []

/-- The name space of the qualifier `xml`, which needs no declaration. -/
def xmlSpace : String := "http://www.w3.org/XML/1998/namespace"

/-- The name space of the qualifier `xmlns`, which declares others. -/
def declaringSpace : String := "http://www.w3.org/2000/xmlns/"

/-- The name spaces that are declared, by qualifier; the empty one stands for names without
qualifier. Of several for one qualifier the first counts. -/
abbrev Scope := List (String × String)

namespace Scope

/-- The name of an attribute. Without a qualifier it is in no name space. -/
def attributeName? (scope : Scope) (name : Name) : Option SpacedName :=
  match name.qualifier with
  | "" => some ⟨none, name.base⟩
  | "xml" => some ⟨some xmlSpace, name.base⟩
  | qualifier => (scope.lookup qualifier).map fun space => ⟨some space, name.base⟩

/-- The name of an element. Without a qualifier it is in the name space that is declared for such
names, if one is. -/
def elementName? (scope : Scope) (name : Name) : Option SpacedName :=
  match scope.lookup name.qualifier with
  | some space => some ⟨some space, name.base⟩
  | none => if name.qualifier = "" then some ⟨none, name.base⟩ else none

end Scope

end PagedHtml.Xml
