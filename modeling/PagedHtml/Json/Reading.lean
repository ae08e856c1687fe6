/-
**Reading lexemes as a value.**

`Node.read` builds the value that a list of lexemes starts with. Arrays and objects that are open
are kept as a list of frames, the innermost first, so a lexeme is looked at once and no depth is too
great.
-/

import PagedHtml.Json.Lexeme

namespace PagedHtml.Json

namespace Node

/-! ### Open arrays and objects -/

/-- An array or object that is open: what was read of it, the last first, and for an object the key
of the member whose value is to come. -/
inductive Frame where
  | array (items : List Node)
  | object (members : List (Option String × Node)) (key : Option String)

namespace Frame

def add (value : Node) : Frame → Frame
  | array items => array (value :: items)
  | object members key => object ((key, value) :: members) key

def close : Frame → Node
  | array items => .array (items.foldl (fun rest item => .cons item rest) .closed)
  | object members _ =>
    .object (members.foldl (fun rest (key, value) => .cons key value rest) .closed)

/-- The array or object that breaks here. -/
def breakOff (cause : Break) : Frame → Node
  | array items => .array (items.foldl (fun rest item => .cons item rest) (.broken cause))
  | object members _ =>
    .object (members.foldl (fun rest (key, value) => .cons key value rest) (.broken cause))

end Frame

/-- The outermost value, if the value `node` is the last thing read inside of the open frames. -/
def abandon (cause : Break) (node : Node) : List Frame → Node
  | [] => node
  | frame :: outer => abandon cause ((frame.add node).breakOff cause) outer

/-! ### One lexeme after another -/

/-- What has to come next. -/
inductive Expected where
  | value
  | firstItem
  /-- What stands between items or members, or the end. -/
  | separator
  | firstKey
  | key
  | colon
  deriving DecidableEq, Repr

/-- A reader goes on with something else to expect, or is done. -/
inductive Progress where
  | going (expected : Expected) (frames : List Frame)
  | done (node : Node)

/-- What the outermost value is if the text breaks here. -/
def breakAt (cause : Break) (expected : Expected) (frames : List Frame) : Node :=
  if expected = .value ∨ expected = .colon then abandon cause (.broken cause) frames
  else
    match frames with
    | [] => .broken cause
    | frame :: outer => abandon cause (frame.breakOff cause) outer

/-- Puts a value where it was expected. -/
def place (node : Node) : List Frame → Progress
  | [] => .done node
  | frame :: outer => .going .separator (frame.add node :: outer)

/-- Goes on where a value is expected. -/
def stepValue (frames : List Frame) : Lexeme → Progress
  | .null => place .null frames
  | .bool value => place (.bool value) frames
  | .number value => place (.number value) frames
  | .text value => place (.text value) frames
  | .openBracket => .going .firstItem (.array [] :: frames)
  | .openBrace => .going .firstKey (.object [] none :: frames)
  | .broken _ cause => .done (breakAt cause .value frames)
  | _ => .done (breakAt (.both .malformed) .value frames)

/-- Goes on where a key is expected in the innermost frame. -/
def stepKey (frame : Frame) (outer : List Frame) : Lexeme → Progress
  | .text key =>
    match frame with
    | .object members _ => .going .colon (.object members key :: outer)
    | .array _ => .done (breakAt (.both .malformed) .key (frame :: outer))
  | .broken true cause => .done (breakAt cause .key (frame :: outer))
  | _ => .done (breakAt (.both .malformed) .key (frame :: outer))

/-- Goes on after an item or a member of the innermost frame. -/
def stepSeparator (frame : Frame) (outer : List Frame) (lexeme : Lexeme) : Progress :=
  match frame, lexeme with
  | .array _, .comma => .going .value (frame :: outer)
  | .array _, .closeBracket => place frame.close outer
  | .object _ _, .comma => .going .key (frame :: outer)
  | .object _ _, .closeBrace => place frame.close outer
  | _, _ => .done (breakAt (.both .malformed) .separator (frame :: outer))

def step (expected : Expected) (frames : List Frame) (lexeme : Lexeme) : Progress :=
  match expected, frames with
  | .value, frames | _, [] => stepValue frames lexeme
  | .firstItem, frame :: outer =>
    if lexeme = .closeBracket then place frame.close outer else stepValue (frame :: outer) lexeme
  | .separator, frame :: outer => stepSeparator frame outer lexeme
  | .firstKey, frame :: outer =>
    if lexeme = .closeBrace then place frame.close outer else stepKey frame outer lexeme
  | .key, frame :: outer => stepKey frame outer lexeme
  | .colon, frame :: outer =>
    if lexeme = .colon then .going .value (frame :: outer)
    else .done (breakAt (.both .malformed) .colon (frame :: outer))

/-- Reads the rest of a value, and what is left after it. -/
def readFrom (expected : Expected) (frames : List Frame) : List Lexeme → Node × List Lexeme
  | [] => (breakAt (.both .cutShort) expected frames, [])
  | lexeme :: rest =>
    match step expected frames lexeme with
    | .going expected frames => readFrom expected frames rest
    | .done node => (node, rest)

/-- The value that a list of lexemes starts with, and what is left after it. -/
def read (lexemes : List Lexeme) : Node × List Lexeme := readFrom .value [] lexemes

end Node

end PagedHtml.Json
