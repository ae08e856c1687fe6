/-
**Images: from references to bytes.**

An acquirer turns a reference into bytes or says why it cannot. `acquireFrom` is the acquirer for
data in place, files and the web. A vector image, which is told by the start of its bytes
(`looksLikeSvg`) or by its name (`hasSvgExtension`), goes through a `Rasterizer`, which is given
from outside as the codecs are.
-/

import PagedHtml.Keyed
import PagedHtml.Reference.DataUrl
import PagedHtml.Reference

namespace PagedHtml

open Encoding (Base64Codec PercentDecoder)

/-- Why an image has no bytes. -/
inductive ImageError where
  | emptySource
  /-- An address on the web could not be fetched. -/
  | fetch (reason : String)
  | dataUrl (fault : DataUrl.Fault)
  /-- A vector image could not be turned into pixels. -/
  | rasterize (reason : String)
  | panicked
  | file (path reason : String)
  deriving DecidableEq, Repr

def ImageError.message : ImageError → String
  | emptySource => "no image source found"
  | fetch reason => "request failed: " ++ reason
  | dataUrl fault => fault.message
  | rasterize reason => "failed to rasterize SVG: " ++ reason
  | panicked => "image acquisition panicked"
  | file path reason => "failed to read '" ++ path ++ "': " ++ reason

/-- What turns references into bytes. -/
abbrev Acquirer := String → Except ImageError (List UInt8)

/-- The bytes of images, by their sources as they were written. -/
abbrev ImageStore := Keyed (List UInt8)

namespace Image

/-! ### Vector images -/

/-- What turns the bytes of a vector image into those of an image of pixels, or says why it cannot.
-/
class Rasterizer where
  rasterize : List UInt8 → Except String (List UInt8)

/-- The five ASCII spaces as bytes. -/
def isSpaceByte (byte : UInt8) : Bool := Text.isSpace (Char.ofNat byte.toNat)

/-- Whether bytes start like an XML document or a vector image, spaces aside. -/
def looksLikeSvg (bytes : List UInt8) : Bool :=
  let start := bytes.dropWhile isSpaceByte
  (Encoding.utf8 "<?xml").isPrefixOf start || (Encoding.utf8 "<svg").isPrefixOf start

/-- The last part of a path that is a name. -/
def fileName? (path : List Char) : Option (List Char) :=
  let parts := (Text.pieces (· == '/') path).filter fun part => !(part == [] || part == ['.'])
  match parts.getLast? with
  | some ['.', '.'] => none
  | last => last

/-- What follows the last point of a name, if something stands before that point. -/
def extension? (name : List Char) : Option (List Char) :=
  match Text.divideAt? (· == '.') name.reverse with
  | some (_, []) => none
  | some (extension, _) => some extension.reverse
  | none => none

/-- Whether a reference ends like that of a vector image, its query and fragment aside. -/
def hasSvgExtension (reference : String) : Bool :=
  let path := reference.toList.takeWhile fun c => !(c == '#' || c == '?')
  (fileName? path >>= extension?).any fun extension =>
    Text.equalsIgnoringCase (String.ofList extension) "svg"

/-! ### The acquirer for data in place, files and the web -/

/-- What an acquirer finds outside of the document: files by path and the web by address, or why one
of them cannot be had. -/
structure Outside where
  file : String → Except String (List UInt8)
  web : String → Except String (List UInt8)

section

variable [Base64Codec] [PercentDecoder]

/-- The bytes that a reference stands for as they are, and whether the reference announces a vector
image. -/
def load (outside : Outside) (reference : String) : Except ImageError (List UInt8 × Bool) :=
  if Reference.isData reference then do
    let url ← (DataUrl.parse reference).mapError .dataUrl
    let bytes ← url.decode.mapError .dataUrl
    return (bytes, Text.startsWith "image/svg" url.mediaType)
  else if Reference.isRemote reference then do
    let bytes ← (outside.web reference).mapError .fetch
    return (bytes, hasSvgExtension reference)
  else do
    let path := (Reference.filePath? reference).getD reference
    let bytes ← (outside.file path).mapError (.file path)
    return (bytes, hasSvgExtension reference)

def acquireFrom [Rasterizer] (outside : Outside) : Acquirer := fun reference =>
  if Text.isBlankText reference then .error .emptySource
  else do
    let (bytes, isVector) ← load outside reference
    if isVector || looksLikeSvg bytes then (Rasterizer.rasterize bytes).mapError .rasterize
    else return bytes

end

end Image

end PagedHtml
