/-
**The pieces of the content of an element: tags, text, and what stands aside.**

`content` takes the pieces up to the end tag that belongs to no start tag among them, or else to the
end of the characters. That tags match is not looked at here, and entities are left as they are
referred to.
-/

import PagedHtml.Xml.Referent

namespace PagedHtml.Xml

open Text (Reader)
open Text.Reader

inductive Ending where
  /-- The element holds what follows. -/
  | opened
  | empty
  /-- The characters end within the tag. -/
  | brokenOff
  deriving DecidableEq, Repr

inductive Piece where
  /-- A start tag with its attributes, the references in them as they are written. -/
  | start (name : Name) (attributes : List (Name × List Char)) (ending : Ending)
  | close (name : Name)
  | text (segments : List Segment)
  /-- Characters without references, a comment or an instruction. -/
  | aside
  deriving DecidableEq, Repr

/-! ### What stands aside -/

/-- A comment, of which the opening mark is taken. No two hyphens stand next to each other in it. -/
def comment : Reader Unit := do
  let text ← upTo "-->"
  guard (text.all isCharacter && text.getLast? != some '-')
  guard (Text.divideAtText? "--".toList text).isNone

/-- An instruction. The declaration that a document may start with has the form of one but is none.
-/
def instruction : Reader Unit := do
  guard !(← sees "<?xml ")
  expect "<?"
  discard plainName
  skipSpaces
  guard ((← upTo "?>").all isCharacter)

def acceptAside : Reader Bool := do
  if ← accept "<!--" then
    comment
    return true
  else if ← sees "<?" then
    instruction
    return true
  else return false

/-- Spaces, comments and instructions, as many as there are. -/
def asides : Reader Unit :=
  iterate (fun _ => do
    skipSpaces
    if ← acceptAside then return .yield () else return .done ()) ()

/-! ### Tags -/

def assignment : Reader (Name × List Char) := do
  let name ← Name.reader
  skipSpaces
  expect "="
  skipSpaces
  let value ← quoted
  guard (value.all fun c => isCharacter c && c != '<')
  return (name, value)

/-- A start tag, of which the first character is taken. -/
def startTag : Reader (Name × List (Name × List Char) × Ending) := do
  let name ← Name.reader
  let (attributes, ending) ← iterate next ([], .brokenOff)
  return (name, attributes.reverse, ending)
where
  /-- The next attribute, or the end of the tag. The attributes so far stand last first. -/
  next : List (Name × List Char) × Ending →
      Reader (ForInStep (List (Name × List Char) × Ending))
    | (attributes, _) => do
      if ← atEnd then return .done (attributes, .brokenOff)
      let isSpaced ← acceptSpaces
      if ← accept "/>" then return .done (attributes, .empty)
      else if ← accept ">" then return .done (attributes, .opened)
      else
        guard isSpaced
        return .yield ((← assignment) :: attributes, .brokenOff)

/-- An end tag, of which the first two characters are taken. -/
def closeTag : Reader Name := do
  let name ← Name.reader
  skipSpaces
  expect ">"
  return name

/-! ### Content -/

/-- Text up to the next tag or aside. -/
def text : Reader (List Segment) := do
  let chars ← takeWhile (· != '<')
  guard (chars.all isCharacter && (Text.divideAtText? "]]>".toList chars).isNone)
  segments? chars

/-- The pieces of content, and the end tag that follows them, if there is one. -/
def content : Reader (List Piece) := do
  let (pieces, _) ← iterate next ([], 0)
  return pieces.reverse
where
  /-- The next piece. The pieces so far stand last first, with the number of elements among them
  that are open. -/
  next : List Piece × Nat → Reader (ForInStep (List Piece × Nat))
    | (pieces, level) => do
      if ← atEnd then return .done (pieces, level)
      else if ← accept "</" then
        let name ← closeTag
        match level with
        | 0 => return .done (.close name :: pieces, 0)
        | level + 1 => return .yield (.close name :: pieces, level)
      else if ← acceptAside then return .yield (.aside :: pieces, level)
      else if ← accept "<![CDATA[" then
        guard ((← upTo "]]>").all isCharacter)
        return .yield (.aside :: pieces, level)
      else if ← accept "<" then
        let (name, attributes, ending) ← startTag
        let level := if ending = .opened then level + 1 else level
        return .yield (.start name attributes ending :: pieces, level)
      else return .yield (.text (← text) :: pieces, level)

end PagedHtml.Xml
