/-
**Writing JSON text without spaces.**

Text is quoted with the shortest escape of each character that needs one (`quote`); a number is
written with a fraction digit always (`PagedHtml.Number.Double.scientificBeyond`); objects keep the
order of their members. `Value.write` writes any value in this way.
-/

import PagedHtml.Json.Value
import PagedHtml.Number.Shortest
import PagedHtml.Text.Hex

namespace PagedHtml.Json

/-- A character inside quotes: quotes, backslashes and control characters are escaped. -/
def escape (c : Char) : List Char :=
  if c = '"' then ['\\', '"']
  else if c = '\\' then ['\\', '\\']
  else if c = '\x08' then ['\\', 'b']
  else if c = '\x0C' then ['\\', 'f']
  else if c = '\n' then ['\\', 'n']
  else if c = '\r' then ['\\', 'r']
  else if c = '\t' then ['\\', 't']
  else if c.toNat < 0x20 then
    ['\\', 'u', '0', '0', Text.hexDigit (c.toNat / 16), Text.hexDigit (c.toNat % 16)]
  else [c]

def quote (text : String) : String :=
  String.ofList ('"' :: (text.toList.flatMap escape ++ ['"']))

def bool (b : Bool) : String := if b then "true" else "false"

/-- A number; JSON has no infinite ones. -/
def number (d : Number.Double) : String :=
  if d.isInfinite then "null" else d.scientificBeyond

/-- An array of values that are already written. -/
def array (values : List String) : String := "[" ++ ",".intercalate values ++ "]"

/-- An object whose values are already written. -/
def object (members : List (String × String)) : String :=
  "\x7b" ++ ",".intercalate (members.map fun (key, value) => quote key ++ ":" ++ value) ++ "\x7d"

namespace Value

mutual

def write : Value → String
  | null => "null"
  | bool value => Json.bool value
  | number value => Json.number value
  | text value => quote value
  | array items => Json.array (writeAll items)
  | object members => Json.object (writeMembers members)

def writeAll : List Value → List String
  | [] => []
  | first :: rest => first.write :: writeAll rest

def writeMembers : List (String × Value) → List (String × String)
  | [] => []
  | (key, value) :: rest => (key, value.write) :: writeMembers rest

end

end Value

end PagedHtml.Json
