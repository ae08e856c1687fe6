/-
**Primitives as JSON text.**

A primitive is an object whose member `type` tells what it is, and the bytes of an image are written
in base64. What writes the text is given as a `Json.Codec`.
-/

import PagedHtml.Encoding.Codec
import PagedHtml.Primitive
import PagedHtml.Style.Json

namespace PagedHtml

open Encoding (Base64Codec)

/-- An object that tells its type first. -/
def typed (type : String) (members : List (String × Json.Value)) : Json.Value :=
  .object (("type", .text type) :: members)

def ImageSource.toJson [Base64Codec] (source : ImageSource) : Json.Value :=
  let (kind, value) :=
    match source with
    | url address => ("url", address)
    | data bytes => ("data", Base64Codec.encode bytes)
  .object [("kind", .text kind), ("value", .text value)]

namespace Shape

mutual

def toJson : Shape → Json.Value
  | group transform children =>
    typed "group" [("transform", .text transform), ("children", .array (toJsonAll children))]
  | polygon fill points => typed "polygon" [("fill", .text fill), ("points", .text points)]

def toJsonAll : List Shape → List Json.Value
  | [] => []
  | first :: rest => first.toJson :: toJsonAll rest

end

end Shape

namespace Primitive

variable [Base64Codec]

def styleJson (style : List Style.Map) : Json.Value := .array (style.map Style.Map.toJson)

mutual

def toJson : Primitive → Json.Value
  | empty => typed "empty" []
  | view style wrap children =>
    typed "view" [("style", styleJson style), ("wrap", .bool wrap),
      ("children", .array (toJsonAll children))]
  | text style children =>
    typed "text" [("style", styleJson style), ("children", .array (toJsonAll children))]
  | literal content => typed "literal" [("text", .text content)]
  | link style target children =>
    typed "link" [("style", styleJson style), ("src", .text target),
      ("children", .array (toJsonAll children))]
  | image style source => typed "image" [("style", styleJson style), ("source", source.toJson)]
  | vector style shapes =>
    typed "svg" [("style", styleJson style), ("children", .array (Shape.toJsonAll shapes))]

def toJsonAll : List Primitive → List Json.Value
  | [] => []
  | first :: rest => first.toJson :: toJsonAll rest

end

def json [Json.Codec] (primitive : Primitive) : String := Json.Codec.write primitive.toJson

end Primitive

end PagedHtml
