/-
**Text as bytes, in UTF-8.**

`utf8` writes text as bytes and `ofUtf8?` reads bytes back, if they are the bytes of a text.
-/

namespace PagedHtml.Encoding

def utf8 (text : String) : List UInt8 := text.toUTF8.data.toList

/-- The text that has the given bytes, if there is one. -/
def ofUtf8? (bytes : List UInt8) : Option String := String.fromUTF8? ⟨bytes.toArray⟩

/-- A text is read back from its bytes. -/
theorem ofUtf8?_utf8 (text : String) : ofUtf8? (utf8 text) = some text := by
  have valid : text.toUTF8.IsValidUTF8 := text.isValidUTF8
  change String.fromUTF8? text.toUTF8 = some text
  rw [String.fromUTF8?, dif_pos valid]
  rfl

end PagedHtml.Encoding
