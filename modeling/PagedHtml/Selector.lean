/-
**Selectors: which elements a style is for.**

A selector describes an element by a compound of tag, classes and identifier, and the elements
around it by further compounds. A selector is kept from the inside out: first the compound of the
element itself, then each compound around it with the combinator that stands to its right. It is
matched against the chain of an element, which is the element and those around it, the innermost
first.

Matching goes outwards once: a descendant combinator takes the nearest element that satisfies its
compound and does not come back to try one further out.
-/

import PagedHtml.Content.Outline
import PagedHtml.Text.Blank

namespace PagedHtml

inductive SimpleSelector where
  | type (name : String)
  | class (name : String)
  | id (name : String)
  | universal
  deriving DecidableEq, Repr

/-- Conditions on one element. -/
abbrev Compound := List SimpleSelector

/-- How an element lies in one around it: somewhere in it, or directly. -/
inductive Combinator where
  | descendant
  | child
  deriving DecidableEq, Repr

/-- A selector, from the inside out. -/
structure Selector where
  subject : Compound
  around : List (Combinator × Compound)
  deriving DecidableEq, Repr

namespace Selector

/-! ### Reading -/

/-- A character of a name: an ASCII letter or digit, a hyphen, a low line, or anything beyond ASCII.
-/
def isNameChar (c : Char) : Bool :=
  c.isAlphanum || c == '-' || c == '_' || !Text.isAscii c

/-- A character between compounds. -/
def isGap (c : Char) : Bool := Text.isSpace c || c == '>'

/-- Takes the name at the front, if there is one. -/
def takeName? (chars : List Char) : Option (String × List Char) :=
  let name := chars.takeWhile isNameChar
  if name.isEmpty then none else some (String.ofList name, chars.dropWhile isNameChar)

theorem length_takeName?_lt {chars rest : List Char} {name : String}
    (taken : takeName? chars = some (name, rest)) : rest.length < chars.length := by
  simp only [takeName?] at taken
  split at taken
  · simp at taken
  · next named =>
    simp only [Option.some.injEq, Prod.mk.injEq] at taken
    obtain ⟨-, rfl⟩ := taken
    have parts := congrArg List.length
      (List.takeWhile_append_dropWhile (p := isNameChar) (l := chars))
    have some_name : 0 < (chars.takeWhile isNameChar).length :=
      List.length_pos_iff.2 (by simpa using named)
    simp only [List.length_append] at parts
    omega

/-- Takes the condition at the front, if it is one of those that are known. -/
def takeSimple? : List Char → Option (SimpleSelector × List Char)
  | [] => none
  | '*' :: rest => some (.universal, rest)
  | '.' :: rest => (takeName? rest).map fun (name, rest) => (.class name, rest)
  | '#' :: rest => (takeName? rest).map fun (name, rest) => (.id name, rest)
  | chars => (takeName? chars).map fun (name, rest) => (.type name, rest)

theorem length_takeSimple?_lt {chars rest : List Char} {simple : SimpleSelector}
    (taken : takeSimple? chars = some (simple, rest)) : rest.length < chars.length := by
  unfold takeSimple? at taken
  split at taken
  · simp at taken
  · simp only [Option.some.injEq, Prod.mk.injEq] at taken
    simp [← taken.2]
  · obtain ⟨⟨name, after⟩, named, same⟩ := Option.map_eq_some_iff.1 taken
    obtain ⟨-, rfl⟩ := Prod.mk.inj same
    have := length_takeName?_lt named
    simp only [List.length_cons]
    omega
  · obtain ⟨⟨name, after⟩, named, same⟩ := Option.map_eq_some_iff.1 taken
    obtain ⟨-, rfl⟩ := Prod.mk.inj same
    have := length_takeName?_lt named
    simp only [List.length_cons]
    omega
  · obtain ⟨⟨name, after⟩, named, same⟩ := Option.map_eq_some_iff.1 taken
    obtain ⟨-, rfl⟩ := Prod.mk.inj same
    exact length_takeName?_lt named

/-- Takes a compound up to the next gap or the end. -/
def takeCompound? (chars : List Char) : Option (Compound × List Char) :=
  if chars.head?.all isGap then some ([], chars)
  else
    match taken : takeSimple? chars with
    | none => none
    | some (simple, rest) =>
      have _bound := length_takeSimple?_lt taken
      (takeCompound? rest).map fun (compound, rest) => (simple :: compound, rest)
termination_by chars.length

theorem length_takeCompound?_le {chars rest : List Char} {compound : Compound}
    (taken : takeCompound? chars = some (compound, rest)) : rest.length ≤ chars.length := by
  fun_induction takeCompound? chars generalizing compound rest with
  | case1 => simp_all
  | case2 => simp at taken
  | case3 _ _ simple after first bound ih =>
    obtain ⟨⟨others, last⟩, more, same⟩ := Option.map_eq_some_iff.1 taken
    obtain ⟨-, rfl⟩ := Prod.mk.inj same
    have := ih more
    omega

/-- Reads a selector from a compound on; `around` holds what stands to its left. -/
def readFrom? (around : List (Combinator × Compound)) (chars : List Char) : Option Selector :=
  match taken : takeCompound? chars with
  | none => none
  | some (compound, []) => some ⟨compound, around⟩
  | some (compound, c :: rest) =>
    have _bound := length_takeCompound?_le taken
    let isChild := c == '>' || (rest.takeWhile isGap).contains '>'
    let after := rest.dropWhile isGap
    if after.isEmpty then if isChild then none else some ⟨compound, around⟩
    else readFrom? ((if isChild then .child else .descendant, compound) :: around) after
termination_by chars.length
decreasing_by
  have := (List.dropWhile_suffix (l := rest) isGap).length_le
  simp only [List.length_cons] at _bound
  omega

/-- The selector that a text spells, if it is one of those that are known. -/
def parse? (text : String) : Option Selector :=
  let chars := Text.trimChars text.toList
  if chars.head?.all isGap then none else readFrom? [] chars

/-! ### Matching -/

def satisfies (element : StyledElement) : SimpleSelector → Bool
  | .type name => Text.equalsIgnoringCase element.tag name
  | .class name => element.attributes.hasClass name
  | .id name => element.attributes.id? == some name
  | .universal => true

def satisfiesAll (compound : Compound) (element : StyledElement) : Bool :=
  compound.all (satisfies element)

/-- Whether the elements around an element satisfy the compounds around a subject. -/
def matchesAround : List (Combinator × Compound) → List StyledElement → Bool
  | [], _ => true
  | (.descendant, compound) :: more, chain =>
    match chain.dropWhile fun element => !satisfiesAll compound element with
    | [] => false
    | _ :: outer => matchesAround more outer
  | (.child, compound) :: more, chain =>
    match chain with
    | [] => false
    | element :: outer => satisfiesAll compound element && matchesAround more outer

/-- Whether a selector is for the first element of a chain. -/
def matchesChain (selector : Selector) : List StyledElement → Bool
  | [] => false
  | element :: outer =>
    satisfiesAll selector.subject element && matchesAround selector.around outer

/-- The elements of an outline that a selector is for. -/
def matchesIn (selector : Selector) (outline : Outline) : List Nat :=
  (List.range outline.size).filter fun id => selector.matchesChain (outline.chain id)

end Selector

end PagedHtml
