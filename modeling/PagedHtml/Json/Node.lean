/-
**JSON values, as far as their text goes.**

Text that is not JSON still has a node: where something is missing or out of place, the node holds
the break instead, and nothing after it. So a decoder that walks a node in the order of the text
meets what is wrong with the shape of a value and what is wrong with its text in that order too.
-/

import PagedHtml.Number.Double

namespace PagedHtml.Json

open Number (Double)

/-- Why JSON text is refused. -/
inductive Fault where
  | malformed
  | cutShort
  /-- It is JSON of another shape than the one asked for. -/
  | mismatch
  deriving DecidableEq, Repr

/-- How a piece of text is broken, for a reader of its value and for one that skips over it. -/
structure Break where
  whenRead : Fault
  whenSkipped : Fault
  deriving DecidableEq, Repr

/-- The break that is the same for all readers. -/
def Break.both (fault : Fault) : Break := ⟨fault, fault⟩

mutual

/-- A value, or the break that stands in its place. -/
inductive Node where
  | null
  | bool (value : Bool)
  /-- A number, if it is in the range of doubles. -/
  | number (value : Option Double)
  /-- Text, if no half of a surrogate pair stands alone in it. -/
  | text (value : Option String)
  | array (items : Items)
  | object (members : Members)
  | broken (cause : Break)

/-- The items of an array, up to its end or to a break. -/
inductive Items where
  | closed
  | broken (cause : Break)
  | cons (item : Node) (rest : Items)

/-- The members of an object, up to its end or to a break. -/
inductive Members where
  | closed
  | broken (cause : Break)
  | cons (key : Option String) (value : Node) (rest : Members)

end

end PagedHtml.Json
