/-
**Decoding: values of the shape that one asks for.**

A decoder walks a `Node` in the order of its text and stops at the first thing that is wrong: a
break in the text, or a value of another shape (`wrongShape`). A value of any shape is walked
through by `check`, which reads everything, or by `skip`, which is laxer. Arrays and objects that
are read may be nested less deep than a codec's limit (`enter`); what is skipped may be as deep as
one likes.
-/

import PagedHtml.Json.Value

namespace PagedHtml.Json

namespace Node

/-- The depth that is left inside an array or object, if one may enter it. -/
def enter (depth : Nat) : Except Fault Nat :=
  if depth ≤ 1 then .error .malformed else .ok (depth - 1)

/-- Why a value of another shape than the one asked for is refused. -/
def wrongShape : Node → Fault
  | broken cause => cause.whenRead
  | number none | text none => .malformed
  | _ => .mismatch

def toBool : Node → Except Fault Bool
  | bool value => .ok value
  | other => .error other.wrongShape

def toText : Node → Except Fault String
  | text (some value) => .ok value
  | other => .error other.wrongShape

/-- Text, or nothing where there is a null. -/
def toText? : Node → Except Fault (Option String)
  | null => .ok none
  | other => other.toText.map some

/-- The texts among items. -/
def itemsToTexts : Items → Except Fault (List String)
  | .closed => .ok []
  | .broken cause => .error cause.whenRead
  | .cons item rest => do return (← item.toText) :: (← itemsToTexts rest)

def toTexts (depth : Nat) : Node → Except Fault (List String)
  | array items => do
    let _ ← enter depth
    itemsToTexts items
  | other => .error other.wrongShape

/-! ### Values of any shape -/

mutual

/-- Reads a value of any shape. -/
def check (depth : Nat) : Node → Except Fault Unit
  | null | bool _ | number (some _) | text (some _) => .ok ()
  | number none | text none => .error .malformed
  | broken cause => .error cause.whenRead
  | array items => do checkItems (← enter depth) items
  | object members => do checkMembers (← enter depth) members

def checkItems (depth : Nat) : Items → Except Fault Unit
  | .closed => .ok ()
  | .broken cause => .error cause.whenRead
  | .cons item rest => do
    check depth item
    checkItems depth rest

def checkMembers (depth : Nat) : Members → Except Fault Unit
  | .closed => .ok ()
  | .broken cause => .error cause.whenRead
  | .cons none _ _ => .error .malformed
  | .cons (some _) value rest => do
    check depth value
    checkMembers depth rest

end

mutual

/-- Skips a value of any shape. -/
def skip : Node → Except Fault Unit
  | null | bool _ | number _ | text _ => .ok ()
  | broken cause => .error cause.whenSkipped
  | array items => skipItems items
  | object members => skipMembers members

def skipItems : Items → Except Fault Unit
  | .closed => .ok ()
  | .broken cause => .error cause.whenSkipped
  | .cons item rest => do
    skip item
    skipItems rest

def skipMembers : Members → Except Fault Unit
  | .closed => .ok ()
  | .broken cause => .error cause.whenSkipped
  | .cons _ value rest => do
    skip value
    skipMembers rest

end

end Node

/-- Decodes a text that holds one value. -/
def decode [Codec] {α : Type} (decoder : Nat → Node → Except Fault α) (text : String) :
    Except Fault α := do
  let (node, isWhole) := Codec.read text
  let value ← decoder Codec.depthLimit node
  if isWhole then return value else throw .malformed

end PagedHtml.Json
