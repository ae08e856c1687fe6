/-
**The options of a rendering, and their JSON form.**

Options are read from an object with any of their names, or from an array of their values in order;
what is missing keeps its default. Members with other names are skipped, whatever they hold, but a
name that comes twice is refused.
-/

import PagedHtml.Style.Json

namespace PagedHtml.Render

/-- What a caller may choose about a rendering. -/
structure Options where
  /-- Whether a run of blanks in text is written as one space. -/
  collapseWhitespace : Bool
  /-- Whether the default styles of tags are left out. -/
  resetStyles : Bool
  stylesheets : List String
  style : Style.Map
  baseUrl : Option String

namespace Options

/-- The options of a caller who chooses nothing. -/
def default : Options := ⟨true, false, [], Style.Map.empty, none⟩

instance : Inhabited Options := ⟨default⟩

/-- Equality of options; numbers in the style are equal as numbers. -/
def equals (a b : Options) : Bool :=
  a.collapseWhitespace == b.collapseWhitespace && a.resetStyles == b.resetStyles &&
    a.stylesheets == b.stylesheets && a.style.equals b.style && a.baseUrl == b.baseUrl

/-! ### The JSON form -/

inductive Field where
  | collapseWhitespace
  | resetStyles
  | stylesheets
  | style
  | baseUrl
  deriving DecidableEq, Repr

namespace Field

/-- All options, in the order of the JSON form. -/
def all : List Field := [collapseWhitespace, resetStyles, stylesheets, style, baseUrl]

def key : Field → String
  | collapseWhitespace => "collapseWhitespace"
  | resetStyles => "resetStyles"
  | stylesheets => "stylesheets"
  | style => "style"
  | baseUrl => "baseUrl"

def ofKey? (key : String) : Option Field := all.find? fun field => field.key == key

def toJson (options : Options) : Field → Json.Value
  | collapseWhitespace => .bool options.collapseWhitespace
  | resetStyles => .bool options.resetStyles
  | stylesheets => .array (options.stylesheets.map .text)
  | style => options.style.toJson
  | baseUrl => .ofText? options.baseUrl

/-- The options with one of them read from a JSON value. -/
def read (field : Field) (depth : Nat) (value : Json.Node) (options : Options) :
    Except Json.Fault Options :=
  match field with
  | collapseWhitespace => do return { options with collapseWhitespace := (← value.toBool) }
  | resetStyles => do return { options with resetStyles := (← value.toBool) }
  | stylesheets => do return { options with stylesheets := (← value.toTexts depth) }
  | style => do return { options with style := (← Style.Map.ofNode depth value) }
  | baseUrl => do return { options with baseUrl := (← value.toText?) }

end Field

def toJson (options : Options) : Json.Value :=
  .object (Field.all.map fun field => (field.key, field.toJson options))

def json [Json.Codec] (options : Options) : String := Json.Codec.write options.toJson

/-- The options with those set that some members name, none of which may be among those `seen`. -/
def withMembers (depth : Nat) (seen : List Field) (options : Options) :
    Json.Members → Except Json.Fault Options
  | .closed => .ok options
  | .broken cause => .error cause.whenRead
  | .cons none _ _ => .error .malformed
  | .cons (some key) value rest =>
    match Field.ofKey? key with
    | none => do
      value.skip
      withMembers depth seen options rest
    | some field =>
      if seen.contains field then .error .mismatch
      else do
        let options ← field.read depth value options
        withMembers depth (field :: seen) options rest

/-- The options with the given ones set to items, in order. -/
def withItems (depth : Nat) (options : Options) :
    List Field → Json.Items → Except Json.Fault Options
  | _, .closed => .ok options
  | _, .broken cause => .error cause.whenRead
  | [], .cons _ _ => .error .malformed
  | field :: fields, .cons value rest => do
    let options ← field.read depth value options
    withItems depth options fields rest

/-- The options that a JSON value describes. -/
def ofNode (depth : Nat) : Json.Node → Except Json.Fault Options
  | .object members => do withMembers (← Json.Node.enter depth) [] default members
  | .array items => do withItems (← Json.Node.enter depth) default Field.all items
  | other => .error other.wrongShape

def ofJson [Json.Codec] (text : String) : Except Json.Fault Options := Json.decode ofNode text

end Options

end PagedHtml.Render
