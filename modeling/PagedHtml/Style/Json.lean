/-
**Styles and tables as JSON text.**

A style is an object with its properties in the order of the vocabulary, and a table an object of
styles in the order of its selectors. A style is read from an object whose members may stand in any
order (`Map.ofJson`); the later of two members with one key wins. What writes and reads the text is
given as a `Json.Codec`.
-/

import PagedHtml.Json.Decode
import PagedHtml.Style.Table

namespace PagedHtml.Style

def Value.toJson : Value → Json.Value
  | number value => .number value
  | text value => .text value

def Map.toJson (style : Map) : Json.Value :=
  .object (style.entries.map fun (property, value) => (property.key, value.toJson))

def Table.toJson (table : Table) : Json.Value :=
  .object (table.entries.map fun (selector, style) => (selector, style.toJson))

section

variable [Json.Codec]

def Map.json (style : Map) : String := Json.Codec.write style.toJson

def Table.json (table : Table) : String := Json.Codec.write table.toJson

end

/-! ### Reading -/

/-- A value: a number, or text. -/
def Value.ofNode (depth : Nat) (node : Json.Node) : Except Json.Fault Value := do
  node.check depth
  match node with
  | .number (some value) => return number value
  | .text (some value) => return text value
  | _ => throw .mismatch

def Property.ofKey : Option String → Except Json.Fault Property
  | none => .error .malformed
  | some key =>
    match ofKey? key with
    | some property => .ok property
    | none => .error .mismatch

/-- The style with the assignments of some members. -/
def Map.withMembers (depth : Nat) (style : Map) : Json.Members → Except Json.Fault Map
  | .closed => .ok style
  | .broken cause => .error cause.whenRead
  | .cons key value rest => do
    let property ← Property.ofKey key
    let value ← Value.ofNode depth value
    withMembers depth (style.insert property value) rest

def Map.ofNode (depth : Nat) : Json.Node → Except Json.Fault Map
  | .object members => do withMembers (← Json.Node.enter depth) Map.empty members
  | other => .error other.wrongShape

def Map.ofJson [Json.Codec] (text : String) : Except Json.Fault Map := Json.decode Map.ofNode text

end PagedHtml.Style
