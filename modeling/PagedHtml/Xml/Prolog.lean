/-
**What may stand before the outermost element of a document.**

A document may start with a declaration of its version and may declare a type, in which entities
are given their texts.
-/

import PagedHtml.Xml.Piece

namespace PagedHtml.Xml

open Text (Reader)
open Text.Reader

/-- The texts of entities by name. Of several texts for one name the first counts. -/
abbrev Entities := List (String × List Char)

namespace Prolog

/-! ### The version -/

/-- Spaces, which may be missing only before the end of the declaration. -/
def spacesOrEnd : Reader Unit := do
  guard ((← acceptSpaces) || (← sees "?>"))

/-- The declaration of the version and perhaps of the encoding and of independence, of which the
first characters are taken. -/
def version : Reader Unit := do
  spacesOrEnd
  guard (← sees "version")
  discard assignment
  spacesOrEnd
  if ← sees "encoding" then
    discard assignment
    spacesOrEnd
  if ← sees "standalone" then discard assignment
  skipSpaces
  expect "?>"

/-! ### The type -/

/-- A place where something is kept: its address, and before that perhaps a public name. -/
def acceptPlace : Reader Bool := do
  if ← accept "SYSTEM" then
    spaces
    discard quoted
    return true
  else if ← accept "PUBLIC" then
    spaces
    discard quoted
    spaces
    discard quoted
    return true
  else return false

/-- What an entity stands for: a text, or something that is kept elsewhere. -/
def definition (isParameter : Bool) : Reader (Option (List Char)) := do
  if ← acceptPlace then
    unless isParameter do
      skipSpaces
      if ← accept "NDATA" then
        spaces
        discard plainName
    return none
  else return some (← quoted)

/-- The declaration of an entity, of which the first characters are taken. Parameters of the type
share their names with entities. -/
def entity : Reader Entities := do
  spaces
  let isParameter ← accept "%"
  if isParameter then spaces
  let name ← plainName
  spaces
  let text ← definition isParameter
  skipSpaces
  expect ">"
  return (text.map (name, ·)).toList

/-- The declarations in a type, of which only those of entities count. -/
def declarations : Reader Entities :=
  iterate next []
where
  /-- The next declaration, or the end of the type. -/
  next (entities : Entities) : Reader (ForInStep Entities) := do
    skipSpaces
    if ← accept "<!ENTITY" then return .yield (entities ++ (← entity))
    else if ← acceptAside then return .yield entities
    else if ← accept "]" then
      skipSpaces
      expect ">"
      return .done entities
    else
      guard ((← accept "<!ELEMENT") || (← accept "<!ATTLIST") || (← accept "<!NOTATION"))
      discard (upTo ">")
      return .yield entities

/-- The declaration of a type, of which the first characters are taken. -/
def type : Reader Entities := do
  spaces
  discard plainName
  skipSpaces
  discard acceptPlace
  skipSpaces
  if ← accept ">" then return []
  else
    expect "["
    declarations

end Prolog

end PagedHtml.Xml
