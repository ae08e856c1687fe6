/-
**The codecs of a run.**

Base64, percent-encoding, JSON and the rasterizer are given from outside, and nothing of a rendering
depends on how they are made. These are the ones with which the library runs: base64 that accepts
nothing but what it writes, percent signs that stand for themselves where no two digits follow, JSON
that is nested less than 128 deep, and a rasterizer that makes the frame of an image.
-/

import PagedHtml.Encoding.Base64
import PagedHtml.Encoding.Percent
import PagedHtml.Image
import PagedHtml.Image.Svg
import PagedHtml.Json.Reading
import PagedHtml.Json.Text

namespace PagedHtml

instance : Encoding.Base64Codec where
  encode := Encoding.Base64.encodeText
  decode text :=
    (Encoding.Base64.decode (Encoding.utf8 text)).mapError Encoding.Base64.Fault.message

instance : Encoding.PercentDecoder where
  decode := Encoding.Percent.decode
  decodeText? := Encoding.Percent.decodeText?

instance : Json.Codec where
  write := Json.Value.write
  read text :=
    let (node, rest) := Json.Node.read (Json.lexemes text)
    (node, rest.isEmpty)
  depthLimit := 128

instance : Image.Rasterizer where
  rasterize := Image.Svg.rasterize

end PagedHtml
