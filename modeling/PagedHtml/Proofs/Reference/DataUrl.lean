/-
**Data in place are the bytes that were written.**

A `data:` address is its scheme in any letter case, a description without a comma, a comma, and the
data (`DataUrl.parse_written`). If the last parameter of the description (`LastParameter`) is the
word `base64`, the data may hold spaces anywhere (`Spaced`); else every byte of them is
percent-encoded or stands for itself, commas included (`Percent.Writes`).

* `Spaced.filter_eq`: the spaces put into a text can be taken out again;
* `DataUrl.decode_written`: both kinds of data are read as the bytes that were written, by any codec
  for base64 and any decoder for percent signs that follow the laws.
-/

import PagedHtml.Primitive.Json
import PagedHtml.Proofs.Codecs
import PagedHtml.Proofs.Encoding.Percent
import PagedHtml.Proofs.Text.LetterCase
import PagedHtml.Proofs.Text.Pieces
import PagedHtml.Reference.DataUrl

namespace PagedHtml

open Encoding (Base64Codec Percent.Writes PercentDecoder)
open Text (isSpace trimChars)

/-! ### Spaces among characters -/

/-- **Characters with ASCII spaces put anywhere among them.** -/
inductive Spaced : List Char → List Char → Prop
  | nil : Spaced [] []
  | space {c : Char} {chars spaced : List Char} :
      isSpace c = true → Spaced chars spaced → Spaced chars (c :: spaced)
  | cons {chars spaced : List Char} (c : Char) : Spaced chars spaced →
      Spaced (c :: chars) (c :: spaced)

/-- The spaces put into a text without any can be taken out again. -/
theorem Spaced.filter_eq {chars data : List Char} (spaced : Spaced chars data)
    (without : ∀ c ∈ chars, isSpace c = false) : data.filter (fun c => !isSpace c) = chars := by
  induction spaced with
  | nil => rfl
  | space blank _ ih => rw [List.filter_cons_of_neg (by simp [blank]), ih without]
  | cons c _ ih =>
    obtain ⟨here, later⟩ := List.forall_mem_cons.mp without
    rw [List.filter_cons_of_pos (by simp [here]), ih later]

/-! ### Addresses -/

/-- What stands behind the last semicolon of a description, or all of it if there is none. -/
inductive LastParameter : List Char → List Char → Prop
  | alone {last : List Char} : ';' ∉ last → LastParameter last last
  | behind (front : List Char) {last : List Char} : ';' ∉ last →
      LastParameter (front ++ ';' :: last) last

namespace DataUrl

variable {scheme description payload last : List Char}

/-- **An address is divided at its first comma**, whatever the letter case of its scheme. -/
theorem parse_written (isScheme : scheme.map Char.toLower = "data:".toList)
    (without : ',' ∉ description) (payload : List Char) :
    parse (String.ofList (scheme ++ (description ++ ',' :: payload))) =
      .ok ⟨String.ofList description, String.ofList payload⟩ := by
  have behind : Text.afterIgnoringCase? "data:".toList (scheme ++ (description ++ ',' :: payload)) =
      some (description ++ ',' :: payload) :=
    Text.afterIgnoringCase?_eq_some_iff.mpr ⟨scheme, rfl, isScheme⟩
  have whole (chars : List Char) : (String.ofList chars).toList = chars := String.toList_ofList
  rw [parse, whole (scheme ++ _), behind]
  simp only [Text.divideAt?_append without]

theorem getLastD_parameters (parameter : LastParameter description last) (payload : String) :
    (parameters ⟨String.ofList description, payload⟩).getLastD [] = last := by
  have only : ∀ c, (c == ';') = true ↔ c = ';' := fun c => beq_iff_eq
  rw [parameters, String.toList_ofList]
  cases parameter with
  | alone without => rw [Text.pieces_of_notMem only without]; rfl
  | behind front without =>
    rw [Text.pieces_append_mark only, Text.pieces_of_notMem only without, List.getLastD_concat]

/-- **Whether data are in base64** is told by the last parameter of their description. -/
theorem isBase64_eq (parameter : LastParameter description last) (payload : String) :
    isBase64 ⟨String.ofList description, payload⟩ =
      Text.equalsIgnoringCase (String.ofList (trimChars last)) "base64" := by
  rw [isBase64, getLastD_parameters parameter]

section

variable [Base64Codec]

/-- Nothing that is written in base64 is a space. -/
theorem isSpace_of_mem_encode (base64 : Base64Codec.Lawful) (bytes : List UInt8) :
    ∀ c ∈ (Base64Codec.encode bytes).toList, isSpace c = false := by
  intro c member
  rcases base64.isSymbol bytes c member with letter | mark
  · refine Bool.eq_false_iff.mpr fun space => ?_
    have blank := Text.isBlank_of_isSpace space
    rw [Text.isBlank_of_isAlphanum letter] at blank
    cases blank
  · have every : ∀ d ∈ ['+', '/', '='], isSpace d = false := by decide
    exact every c mark

variable [PercentDecoder]

/-- **Data in base64 are decoded**, with spaces anywhere in them. -/
theorem decode_spaced (base64 : Base64Codec.Lawful) {bytes : List UInt8} {word data : List Char}
    (isWord : word.map Char.toLower = "base64".toList)
    (spaced : Spaced (Base64Codec.encode bytes).toList data) :
    decode ⟨String.ofList (description ++ ';' :: word), String.ofList data⟩ = .ok bytes := by
  have letters : ∀ c ∈ word, c.isAlphanum = true := by
    intro c member
    have lowered : c.toLower ∈ "base64".toList := isWord ▸ List.mem_map_of_mem member
    have every : ∀ d ∈ "base64".toList, d.isAlphanum = true := List.all_eq_true.mp rfl
    exact Text.isAlphanum_of_toLower (every _ lowered)
  have last : LastParameter (description ++ ';' :: word) word := .behind description fun member =>
    absurd (letters ';' member) (by decide)
  have inBase64 :
      isBase64 ⟨String.ofList (description ++ ';' :: word), String.ofList data⟩ = true := by
    have trimmed : Text.IsTrimmed word :=
      Text.isTrimmed_of_visible fun c member => Text.isBlank_of_isAlphanum (letters c member)
    rw [isBase64_eq last, Text.trimChars_of_isTrimmed trimmed, Text.equalsIgnoringCase,
      String.toList_ofList, isWord]
    rfl
  rw [decode, if_pos inBase64, String.toList_ofList,
    spaced.filter_eq (isSpace_of_mem_encode base64 bytes), String.ofList_toList]
  simp only [base64.decode_encode]
  rfl

/-- **Other data are percent-decoded.** -/
theorem decode_percent (percent : PercentDecoder.Lawful) {bytes : List UInt8} {data : List Char}
    (parameter : LastParameter description last)
    (other : Text.equalsIgnoringCase (String.ofList (trimChars last)) "base64" = false)
    (writes : Percent.Writes data bytes) :
    decode ⟨String.ofList description, String.ofList data⟩ = .ok bytes := by
  rw [decode, isBase64_eq parameter, other, if_neg Bool.false_ne_true, writes.decode_eq percent]

/-- **The bytes that an address holds in place are those that were written**: in base64, as in the
JSON of an image, with spaces anywhere, or percent-encoded. -/
theorem decode_written (base64 : Base64Codec.Lawful) (percent : PercentDecoder.Lawful)
    (bytes : List UInt8) {scheme description : List Char}
    (isScheme : scheme.map Char.toLower = "data:".toList) (without : ',' ∉ description) :
    (ImageSource.data bytes).toJson =
        .object [("kind", .text "data"), ("value", .text (Base64Codec.encode bytes))] ∧
      (∀ word data, word.map Char.toLower = "base64".toList →
        Spaced (Base64Codec.encode bytes).toList data →
        ∃ url, parse (String.ofList (scheme ++ (description ++ ';' :: word ++ ',' :: data))) =
          .ok url ∧ url.decode = .ok bytes) ∧
      ∀ last data, LastParameter description last →
        Text.equalsIgnoringCase (String.ofList (trimChars last)) "base64" = false →
        Percent.Writes data bytes →
        ∃ url, parse (String.ofList (scheme ++ (description ++ ',' :: data))) = .ok url ∧
          url.decode = .ok bytes := by
  refine ⟨rfl, fun word data isWord spaced => ?_, fun last data parameter other writes => ?_⟩
  · have commaless : ',' ∉ description ++ ';' :: word := by
      have inWord : ',' ∉ word := by
        intro member
        have lowered : Char.toLower ',' ∈ "base64".toList := isWord ▸ List.mem_map_of_mem member
        revert lowered
        decide
      simp [without, inWord]
    exact ⟨_, parse_written isScheme commaless data, decode_spaced base64 isWord spaced⟩
  · exact ⟨_, parse_written isScheme without data, decode_percent percent parameter other writes⟩

end

/-- Two bytes, the second of which is a comma, in base64 with a space and percent-encoded. -/
theorem decode_written_comma :
    (∃ url, parse "DATA:a/b;Base64,aC w=" = .ok url ∧ url.decode = .ok [104, 44]) ∧
      ∃ url, parse "DATA:a/b,%68," = .ok url ∧ url.decode = .ok [104, 44] := by
  have isScheme : "DATA:".toList.map Char.toLower = "data:".toList := by decide
  have written := decode_written lawful_base64Codec lawful_percentDecoder [104, 44] isScheme
    (by decide : ',' ∉ "a/b".toList)
  have spaced : Spaced (Base64Codec.encode [104, 44]).toList "aC w=".toList :=
    .cons _ (.cons _ (.space rfl (.cons _ (.cons _ .nil))))
  have writes : Percent.Writes "%68,".toList [104, 44] :=
    .digits ⟨0, rfl⟩ (.plain rfl (by decide) .nil)
  exact ⟨written.2.1 "Base64".toList "aC w=".toList (by decide) spaced,
    written.2.2 "a/b".toList "%68,".toList (.alone (by decide)) rfl writes⟩

end DataUrl

end PagedHtml
