/-
**Base64 and percent-encoding, as they are given from outside.**

What writes bytes as text and reads them back is no part of a rendering: a `Base64Codec` and a
`PercentDecoder` are given, and all that decodes a reference takes them as they come. What a codec
is for is what its laws say (`Base64Codec.Lawful`, `PercentDecoder.Lawful`).
-/

import PagedHtml.Encoding.Utf8
import PagedHtml.Text.Hex

namespace PagedHtml.Encoding

/-! ### Base64 -/

/-- What writes bytes as text in base64, and reads such text or says what is wrong with it. -/
class Base64Codec where
  encode : List UInt8 → String
  decode : String → Except String (List UInt8)

/-- **The laws of base64** with the standard alphabet and padding. -/
structure Base64Codec.Lawful [Base64Codec] : Prop where
  decode_encode (bytes : List UInt8) : decode (encode bytes) = .ok bytes
  isSymbol (bytes : List UInt8) :
    ∀ c ∈ (encode bytes).toList, c.isAlphanum = true ∨ c ∈ ['+', '/', '=']

/-! ### Percent-encoding -/

namespace Percent

def sign : UInt8 := 37

/-- The value of a hexadecimal digit that is given as a byte. -/
def digitValue? (byte : UInt8) : Option Nat := Text.hexValue? (Char.ofNat byte.toNat)

end Percent

/-- What takes percent signs with their digits out of bytes, and out of a text, of which the bytes
that come out need not be a text. -/
class PercentDecoder where
  decode : List UInt8 → List UInt8
  decodeText? : String → Option String

/-- **The laws of percent-encoding**: a percent sign and two hexadecimal digits stand for a byte,
and any byte but the percent sign for itself. -/
structure PercentDecoder.Lawful [PercentDecoder] : Prop where
  decode_nil : decode [] = []
  decode_cons {a : UInt8} (plain : a ≠ Percent.sign) (rest : List UInt8) :
    decode (a :: rest) = a :: decode rest
  decode_digits {b c : UInt8} {high low : Nat} (first : Percent.digitValue? b = some high)
    (second : Percent.digitValue? c = some low) (rest : List UInt8) :
    decode (Percent.sign :: b :: c :: rest) = UInt8.ofNat (16 * high + low) :: decode rest
  decodeText?_eq (text : String) : decodeText? text = ofUtf8? (decode (utf8 text))

end PagedHtml.Encoding
