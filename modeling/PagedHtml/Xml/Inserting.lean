/-
**Texts of entities inserted where they are referred to.**

Inserted text may refer to entities again, up to `deepest` levels; the references in inserted text
are counted, up to `mostReferences` for one reference outside of it. `attributeValue` resolves the
references in the value of an attribute.
-/

import PagedHtml.Xml.Prolog

namespace PagedHtml.Xml

/-- How deep inserted text may lie within inserted text. -/
def deepest : Nat := 10

/-- How many references there may be in inserted text, for one reference outside of it. -/
def mostReferences : Nat := 255

/-- The number of references with another one, which stands in text with `room` levels to go. In
text that is not inserted references do not count. -/
def countReference? (room count : Nat) : Option Nat :=
  if room = deepest then some count
  else if count < mostReferences then some (count + 1)
  else none

/-- The number of references after text was inserted into text with `room` levels to go. -/
def countAfter (room count : Nat) : Nat := if room = deepest then 0 else count

/-! ### Values of attributes -/

/-- Characters with a space for each tab and each end of a line, of which carriage return and line
feed together are one. -/
def withSpaces : List Char → List Char
  | [] => []
  | c :: rest =>
    if c == '\r' && rest.head? == some '\n' then withSpaces rest
    else (if c == '\t' || c == '\n' || c == '\r' then ' ' else c) :: withSpaces rest

/-- The characters for a part of a value with `room` levels to go, where `insert` resolves inserted
text. What is referred to by number keeps its spaces, but not in inserted text, which must not refer
to `<` either. -/
def segmentValue (entities : Entities) (room : Nat)
    (insert : List Char → StateT Nat Option (List Char)) : Segment → StateT Nat Option (List Char)
  | .characters chars => pure (withSpaces chars)
  | .reference (.character c) =>
    if room = deepest then pure [c]
    else if c = '<' then failure
    else pure (withSpaces [c])
  | .reference (.entity name) => do
    let text ← entities.lookup name
    set (← countReference? room (← get))
    let inserted ← insert text
    modify (countAfter room)
    return inserted

/-- A value with its references resolved, where `room` levels of inserted text are left. The state
is the number of references. -/
def attributeValue (entities : Entities) : (room : Nat) → List Char → StateT Nat Option (List Char)
  | 0, chars => do
    let values ← (← segments? chars).mapM (segmentValue entities 0 fun _ => failure)
    return values.flatten
  | room + 1, chars => do
    let insert := attributeValue entities room
    let values ← (← segments? chars).mapM (segmentValue entities (room + 1) insert)
    return values.flatten

end PagedHtml.Xml
