/-
**Addresses that hold their data in place.**

A `data:` address has a description up to its first comma, and data after it. The description starts
with the media type; if its last part is the word `base64`, the data are base64, with spaces where
one likes, and otherwise they are percent-encoded.
-/

import PagedHtml.Encoding.Codec
import PagedHtml.Text.Ascii
import PagedHtml.Text.Blank

namespace PagedHtml

/-- An address that holds its data in place. -/
structure DataUrl where
  /-- What stands before the first comma. -/
  description : String
  /-- What stands after the first comma. -/
  payload : String
  deriving DecidableEq, Repr

namespace DataUrl

inductive Fault where
  | notDataUrl
  | missingComma
  | base64 (reason : String)
  deriving DecidableEq, Repr

def Fault.message : Fault → String
  | notDataUrl => "not a data URL"
  | missingComma => "invalid data URL: missing comma"
  | base64 reason => "base64 decode error: " ++ reason

/-- Divides an address into description and data. -/
def parse (address : String) : Except Fault DataUrl :=
  match Text.afterIgnoringCase? "data:".toList address.toList with
  | none => .error .notDataUrl
  | some rest =>
    match Text.divideAt? (· == ',') rest with
    | none => .error .missingComma
    | some (description, payload) => .ok ⟨String.ofList description, String.ofList payload⟩

def parameters (url : DataUrl) : List (List Char) :=
  Text.pieces (· == ';') url.description.toList

/-- The media type, which may be empty. -/
def mediaType (url : DataUrl) : String :=
  String.ofList (Text.trimChars (url.parameters.headD []))

def isBase64 (url : DataUrl) : Bool :=
  Text.equalsIgnoringCase (String.ofList (Text.trimChars (url.parameters.getLastD []))) "base64"

def decode [Encoding.Base64Codec] [Encoding.PercentDecoder] (url : DataUrl) :
    Except Fault (List UInt8) :=
  if url.isBase64 then
    let compact := String.ofList (url.payload.toList.filter fun c => !Text.isSpace c)
    (Encoding.Base64Codec.decode compact).mapError .base64
  else .ok (Encoding.PercentDecoder.decode (Encoding.utf8 url.payload))

end DataUrl

end PagedHtml
