/-
**The codecs of a run follow the laws.**

Whatever is proved of lawful codecs holds of the ones with which the library runs.
-/

import PagedHtml.Codecs
import PagedHtml.Proofs.Encoding.Base64
import PagedHtml.Proofs.Encoding.Utf8
import PagedHtml.Proofs.Json.Writing

namespace PagedHtml

open Encoding (Base64Codec PercentDecoder)

theorem lawful_base64Codec : Base64Codec.Lawful where
  decode_encode bytes := by
    show (Encoding.Base64.decode (Encoding.utf8 (Encoding.Base64.encodeText bytes))).mapError _ = _
    rw [Encoding.Base64.utf8_encodeText, Encoding.Base64.decode_encode]
    rfl
  isSymbol bytes := Encoding.Base64.forall_mem_encodeText (by decide) (by decide) bytes

theorem lawful_percentDecoder : PercentDecoder.Lawful where
  decode_nil := rfl
  decode_cons := Encoding.Percent.decode_cons
  decode_digits := Encoding.Percent.decode_digits
  decodeText?_eq _ := rfl

theorem lawful_jsonCodec : Json.Codec.Lawful where
  read_write {members} plain := by
    have back := Json.Node.isReadBack_object fun member inside =>
      Json.Node.isReadBack_of_isPlain (plain member inside)
    show ((Json.Node.read (Json.lexemes (Json.Value.object members).write)).1,
      (Json.Node.read (Json.lexemes (Json.Value.object members).write)).2.isEmpty) = _
    rw [back.read_write]
    rfl
  one_lt_depthLimit := by decide

end PagedHtml
