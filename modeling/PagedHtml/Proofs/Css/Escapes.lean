/-
**Escapes in names and strings.**

An escape is a backslash and up to six hexadecimal digits, which denote the character with their
number (`Denotes`), or a backslash and any other character, which stands for itself. One space
behind the digits belongs to the escape. So a text may be written with an escape for each of its
characters (`escaped`), and reading it gives the text back wherever escapes are read, whatever the
characters.

* `Denotes.takeEscape_append`: an escape is read as what its digits denote;
* `SpellsName.takeName_append`: a name is read from any way to spell it, and goes on behind it;
* `takeString_escaped`: so is the text of a string that is written in escapes;
* `tokenize_escaped`: the tokens of escapes, and of a name that ends with a lone backslash.
-/

import PagedHtml.Proofs.Css.LineQuotations
import PagedHtml.Proofs.Css.Rereading
import PagedHtml.Proofs.Text.Hexadecimal

namespace PagedHtml.Css

open Text (isSpace isHexDigit WritesHex)

namespace Scan

variable {c : Char} {digits rest text name : List Char} {n : Nat}

/-! ### What the digits of an escape denote -/

/-- A number that no character has: zero counts as one, and so do the surrogates. -/
def IsNoCharacter (n : Nat) : Prop := n = 0 ∨ 0xD800 ≤ n ∧ n ≤ 0xDFFF ∨ 0x10FFFF < n

/-- **What the digits of an escape denote**: the character with their number, or U+FFFD if no
character has it. There are six digits at most. -/
inductive Denotes (digits : List Char) : Char → Prop
  | character {c : Char} (short : digits.length ≤ 6) (notNull : c ≠ '\x00')
      (written : WritesHex digits c.toNat) : Denotes digits c
  | replaced {n : Nat} (short : digits.length ≤ 6) (none : IsNoCharacter n)
      (written : WritesHex digits n) : Denotes digits '\uFFFD'

theorem isValidChar_iff : n ≠ 0 ∧ n.isValidChar ↔ ¬ IsNoCharacter n := by
  simp only [Nat.isValidChar, IsNoCharacter]
  omega

theorem charOfCodePoint_toNat (notNull : c ≠ '\x00') : charOfCodePoint c.toNat = c := by
  have positive : c.toNat ≠ 0 := fun zero => notNull (Char.toNat_inj.mp zero)
  rw [charOfCodePoint, if_pos ⟨positive, c.valid⟩, Char.ofNat_toNat]

theorem charOfCodePoint_of_isNoCharacter (none : IsNoCharacter n) :
    charOfCodePoint n = '\uFFFD' :=
  if_neg fun valid => isValidChar_iff.mp valid none

/-- The digits denote the character that is read for their number. -/
theorem denotes_iff :
    Denotes digits c ↔ digits.length ≤ 6 ∧ ∃ n, WritesHex digits n ∧ charOfCodePoint n = c := by
  constructor
  · intro denotes
    cases denotes with
    | character short notNull written => exact ⟨short, _, written, charOfCodePoint_toNat notNull⟩
    | replaced short none written =>
      exact ⟨short, _, written, charOfCodePoint_of_isNoCharacter none⟩
  · rintro ⟨short, n, written, rfl⟩
    by_cases none : IsNoCharacter n
    · rw [charOfCodePoint_of_isNoCharacter none]
      exact .replaced short none written
    · have valid := isValidChar_iff.mpr none
      have number : (charOfCodePoint n).toNat = n := by
        rw [charOfCodePoint, if_pos valid, Char.ofNat, dif_pos valid.2]
        rfl
      refine .character short (fun null => valid.1 ?_) (number.symm ▸ written)
      rw [← number, null]
      rfl

theorem Denotes.hexDigits (denotes : Denotes digits c) :
    digits ≠ [] ∧ ∀ d ∈ digits, isHexDigit d = true := by
  obtain ⟨-, n, written, -⟩ := denotes_iff.mp denotes
  exact Text.exists_writesHex_iff.mp ⟨n, written⟩

/-! ### Escapes -/

/-- That what follows the digits of an escape does not go on with them. -/
def EndsDigits (digits rest : List Char) : Prop :=
  digits.length = 6 ∨ ∀ d ∈ rest.head?, isHexDigit d = false

/-- **An escape is read as what its digits denote**, with the space behind them. -/
theorem Denotes.takeEscape_append (denotes : Denotes digits c) (ends : EndsDigits digits rest) :
    takeEscape (digits ++ rest) = (c, afterDigits rest) := by
  obtain ⟨short, n, written, rfl⟩ := denotes_iff.mp denotes
  obtain ⟨nonempty, hex⟩ := denotes.hexDigits
  obtain ⟨d, more, rfl⟩ := List.exists_cons_of_ne_nil nonempty
  obtain ⟨hexHere, hexMore⟩ := List.forall_mem_cons.mp hex
  have number := (Text.writesHex_iff.mp written).2
  have taken : ((more ++ rest).take 5).takeWhile isHexDigit = more := by
    rw [List.length_cons] at short
    rw [List.take_append, List.take_of_length_le (by omega), List.takeWhile_append_of_pos hexMore]
    rcases ends with six | stops
    · rw [List.length_cons] at six
      rw [(by omega : 5 - more.length = 0)]
      exact List.append_nil more
    · cases rest with
      | nil => simp
      | cons e rest =>
        have stop : ¬ isHexDigit e = true := by simp [stops e rfl]
        cases 5 - more.length <;> simp [stop]
  simp only [List.cons_append, takeEscape, if_pos hexHere, taken, number, List.drop_left,
    Option.getD_some, afterDigits]

theorem Denotes.startsEscape_append (denotes : Denotes digits c) (rest : List Char) :
    startsEscape (digits ++ rest) = true := by
  obtain ⟨nonempty, hex⟩ := denotes.hexDigits
  obtain ⟨d, more, rfl⟩ := List.exists_cons_of_ne_nil nonempty
  rw [startsEscape_iff, List.cons_append, List.head?_cons, ne_eq, Option.some.injEq]
  rintro rfl
  exact absurd (hex _ List.mem_cons_self) (by decide)

theorem afterDigits_space {space : Char} (isOne : isSpace space = true) (rest : List Char) :
    afterDigits (space :: rest) = rest :=
  if_pos isOne

theorem afterDigits_eq_self (visible : ∀ d ∈ rest.head?, isSpace d = false) :
    afterDigits rest = rest := by
  cases rest with
  | nil => rfl
  | cons d rest => exact if_neg (by simp [visible d rfl])

theorem isHexDigit_of_isSpace (space : isSpace c = true) : isHexDigit c = false := by
  simp only [isSpace, Bool.or_eq_true, beq_iff_eq] at space
  rcases space with (((rfl | rfl) | rfl) | rfl) | rfl <;> decide

/-- An escape is read with the space behind its digits. -/
theorem Denotes.takeEscape_space (denotes : Denotes digits c) {space : Char}
    (isOne : isSpace space = true) (rest : List Char) :
    takeEscape (digits ++ space :: rest) = (c, rest) := by
  rw [denotes.takeEscape_append (.inr ?_), afterDigits_space isOne]
  intro d first
  obtain rfl := Option.some.inj first
  exact isHexDigit_of_isSpace isOne

/-! ### Names -/

/-- **How a text spells the characters of a name**: one by one as they are, or in escapes. Digits
may go without a space behind them where nothing that follows could be one of them. -/
inductive SpellsName : List Char → List Char → Prop
  | nil : SpellsName [] []
  | plain {c : Char} {text name : List Char} (isName : isNameChar c = true)
      (others : SpellsName text name) : SpellsName (c :: text) (c :: name)
  | literal {c : Char} {text name : List Char} (notDigit : isHexDigit c = false)
      (notBreak : c ≠ '\n') (others : SpellsName text name) :
      SpellsName ('\\' :: c :: text) (c :: name)
  | spaced {c space : Char} {digits text name : List Char} (denotes : Denotes digits c)
      (isOne : isSpace space = true) (others : SpellsName text name) :
      SpellsName ('\\' :: (digits ++ space :: text)) (c :: name)
  | packed {c : Char} {digits text name : List Char} (denotes : Denotes digits c)
      (ends : EndsDigits digits text) (others : SpellsName text name) :
      SpellsName ('\\' :: (digits ++ text)) (c :: name)

/-- That text behind a name is not taken for the end of its last escape. -/
def EndsName (rest : List Char) : Prop :=
  ∀ d ∈ rest.head?, isSpace d = false ∧ isHexDigit d = false

/-- No name starts with a space. -/
theorem SpellsName.isSpace_head (spells : SpellsName text name) :
    ∀ d ∈ text.head?, isSpace d = false := by
  cases spells with
  | nil => exact fun d none => absurd none (by simp)
  | plain isName =>
    intro d first
    obtain rfl := Option.some.inj first
    exact isSpace_of_isNameChar isName
  | literal | spaced | packed =>
    intro d first
    obtain rfl := Option.some.inj first
    decide

theorem takeEscape_literal (notDigit : isHexDigit c = false) (rest : List Char) :
    takeEscape (c :: rest) = (c, rest) :=
  if_neg (by simp [notDigit])

/-- **A name is read from any text that spells it**, and goes on with what follows. -/
theorem SpellsName.takeName_append (spells : SpellsName text name) (ends : EndsName rest) :
    takeName (text ++ rest) = (name ++ (takeName rest).1, (takeName rest).2) := by
  induction spells with
  | nil => rfl
  | plain isName _ ih =>
    rw [List.cons_append, takeName_of_name isName, ih]
    rfl
  | @literal c text name notDigit notBreak _ ih =>
    have valid : startsEscape (c :: (text ++ rest)) = true :=
      startsEscape_iff.mpr (by simpa using notBreak)
    rw [List.cons_append, List.cons_append, takeName_escape valid, takeEscape_literal notDigit, ih]
    rfl
  | @spaced c space digits text name denotes isOne _ ih =>
    rw [List.cons_append, List.append_assoc, List.cons_append,
      takeName_escape (denotes.startsEscape_append _), denotes.takeEscape_space isOne, ih]
    rfl
  | @packed c digits text name denotes endsDigits spells ih =>
    have visible : ∀ d ∈ (text ++ rest).head?, isSpace d = false := by
      cases text with
      | nil => exact fun d first => (ends d first).1
      | cons d text => exact spells.isSpace_head
    have endsHere : EndsDigits digits (text ++ rest) := by
      cases text with
      | nil => exact .inr fun d first => (ends d first).2
      | cons d text => exact endsDigits
    rw [List.cons_append, List.append_assoc, takeName_escape (denotes.startsEscape_append _),
      denotes.takeEscape_append endsHere, afterDigits_eq_self visible, ih]
    rfl

theorem SpellsName.takeName_eq (spells : SpellsName text name) : takeName text = (name, []) := by
  have ends : EndsName [] := fun d none => absurd none (by simp)
  have whole := spells.takeName_append ends
  simpa [takeName] using whole

theorem takeName_backslash : takeName ['\\'] = (['\uFFFD'], []) := by
  rw [takeName_escape (by decide), takeEscape, takeName]
  rfl

/-- **A backslash at the end of a name and of the text denotes U+FFFD.** -/
theorem SpellsName.takeName_backslash (spells : SpellsName text name) :
    takeName (text ++ ['\\']) = (name ++ ['\uFFFD'], []) := by
  rw [spells.takeName_append, Scan.takeName_backslash]
  intro d first
  obtain rfl := Option.some.inj first
  exact ⟨by decide, by decide⟩

/-! ### Texts of escapes -/

variable {escapes : List (List Char)} {chars : List Char} {quote : Char}

/-- A backslash, the digits and a space for each of some escapes. -/
def escaped (escapes : List (List Char)) : List Char :=
  escapes.flatMap fun digits => '\\' :: (digits ++ [' '])

theorem escaped_cons (digits : List Char) (escapes : List (List Char)) (rest : List Char) :
    escaped (digits :: escapes) ++ rest = '\\' :: (digits ++ ' ' :: (escaped escapes ++ rest)) := by
  simp [escaped]

theorem exists_escaped (nonempty : chars ≠ []) (written : List.Forall₂ Denotes escapes chars) :
    ∃ more, escaped escapes = '\\' :: more ∧ startsEscape more = true := by
  cases written with
  | nil => exact absurd rfl nonempty
  | @cons digits _ escapes _ denotes _ =>
    refine ⟨digits ++ ' ' :: (escaped escapes ++ []), ?_, denotes.startsEscape_append _⟩
    rw [← escaped_cons, List.append_nil]

theorem spellsName_escaped (written : List.Forall₂ Denotes escapes chars) :
    SpellsName (escaped escapes) chars := by
  induction written with
  | nil => exact .nil
  | @cons digits c escapes chars denotes _ ih =>
    rw [← List.append_nil (escaped _), escaped_cons, List.append_nil]
    exact .spaced denotes (by decide) ih

/-- **A string is read from the escapes of its characters**, and goes on with what follows. -/
theorem takeString_escaped (isQuote : IsQuote quote) (written : List.Forall₂ Denotes escapes chars)
    (rest : List Char) :
    takeString quote (escaped escapes ++ rest) =
      { takeString quote rest with chars := chars ++ (takeString quote rest).chars } := by
  induction written with
  | nil => rfl
  | @cons digits c escapes chars denotes _ ih =>
    have valid := denotes.startsEscape_append (' ' :: (escaped escapes ++ rest))
    have space : isSpace ' ' = true := by decide
    have taken := denotes.takeEscape_space space (escaped escapes ++ rest)
    obtain ⟨d, more, rfl⟩ := List.exists_cons_of_ne_nil denotes.hexDigits.1
    rw [List.cons_append] at valid taken
    have notFeed : d ≠ '\n' := by simpa using startsEscape_iff.mp valid
    rw [escaped_cons, List.cons_append, takeString_escape isQuote notFeed, taken, ih]
    rfl

end Scan

namespace Lexer

open Scan

variable {c : Char} {rest : List Char}

/-- A name that goes to the end of the text is its token. -/
theorem tokenAt_of_startsName {name : List Char} (starts : startsName (c :: rest) = true)
    (taken : takeName (c :: rest) = (name, [])) :
    tokenAt c rest = ⟨.ident (String.ofList name), none, []⟩ := by
  have notClosing : ¬ (c = '-' ∧ rest.take 2 = ['-', '>']) := by
    rintro ⟨rfl, two⟩
    obtain ⟨more, rfl⟩ := List.prefix_iff_eq_take.mpr two.symm
    have hyphens : takeName ('-' :: '-' :: '>' :: more) = (['-', '-'], '>' :: more) := by
      rw [takeName_of_name (by decide), takeName_of_name (by decide),
        takeName_stop (by decide) (by decide)]
    exact absurd (taken.symm.trans hyphens) (by simp)
  rw [tokenAt_of_notMem (notMem_special_of_startsName starts),
    if_neg (by simp [startsNumber_of_startsName starts]), if_neg notClosing, if_pos starts,
    namedToken_eq, taken]
  rfl

end Lexer

/-! ### Tokens -/

open Scan

/-- A name that goes to the end of the text is its only token. -/
theorem tokenizeChars_of_startsName {chars name : List Char} (starts : startsName chars = true)
    (taken : takeName chars = (name, [])) :
    tokenizeChars chars = ⟨[.ident (String.ofList name), .endOfFile], []⟩ := by
  cases chars with
  | nil => cases starts
  | cons c rest =>
    have noComment : c ≠ '/' := by
      rintro rfl
      rw [startsName_cons (by decide) (by decide)] at starts
      exact absurd starts (by decide)
    rw [tokenizeChars_of_cons (skipComments?_of_ne noComment rest),
      Lexer.tokenAt_of_startsName starts taken, tokenizeChars_of_nil skipComments?_nil]
    rfl

/-- Behind a number sign a name may start with any of its characters. -/
theorem tokenizeChars_hash {chars name : List Char} (valid : startsEscape chars = true)
    (taken : takeName ('\\' :: chars) = (name, [])) :
    tokenizeChars ('#' :: '\\' :: chars) = ⟨[.hash (String.ofList name), .endOfFile], []⟩ := by
  have hash : Lexer.tokenAt '#' ('\\' :: chars) = ⟨.hash (String.ofList name), none, []⟩ := by
    show Lexer.hashToken _ = _
    simp [Lexer.hashToken, valid, taken]
  rw [tokenizeChars_of_cons (skipComments?_of_ne (by decide) _), hash,
    tokenizeChars_of_nil skipComments?_nil]
  rfl

theorem tokenizeChars_string {chars text : List Char}
    (taken : takeString '"' chars = ⟨text, .closed, []⟩) :
    tokenizeChars ('"' :: chars) = ⟨[.string (String.ofList text), .endOfFile], []⟩ := by
  have string : Lexer.tokenAt '"' chars = ⟨.string (String.ofList text), none, []⟩ := by
    show Lexer.stringToken '"' chars = _
    rw [Lexer.stringToken, taken]
  rw [tokenizeChars_of_cons (skipComments?_of_ne (by decide) _), string,
    tokenizeChars_of_nil skipComments?_nil]
  rfl

/-- **Escapes are read as what they denote**: as one name, behind a number sign and in quotes, where
each escape has a space behind it, and at any place where an escape is read. A lone backslash at the
end of the text ends the name in front of it with U+FFFD. -/
theorem tokenize_escaped :
    (∀ {v : String} {escapes : List (List Char)}, v ≠ "" → List.Forall₂ Denotes escapes v.toList →
      tokenize (String.ofList (escaped escapes)) = ⟨[.ident v, .endOfFile], []⟩ ∧
      tokenize ("#" ++ String.ofList (escaped escapes)) = ⟨[.hash v, .endOfFile], []⟩ ∧
      tokenize ("\"" ++ String.ofList (escaped escapes) ++ "\"") =
        ⟨[.string v, .endOfFile], []⟩) ∧
    (∀ {digits : List Char} {c : Char}, Denotes digits c → ∀ {rest}, EndsDigits digits rest →
      takeEscape (digits ++ rest) = (c, afterDigits rest)) ∧
    ∀ {text name : List Char}, SpellsName text name →
      takeName (text ++ ['\\']) = (name ++ ['\uFFFD'], []) ∧
      (startsName (text ++ ['\\']) = true →
        tokenize (String.ofList text ++ "\\") =
          ⟨[.ident (String.ofList name ++ "\uFFFD"), .endOfFile], []⟩) := by
  refine ⟨?_, fun denotes _ ends => denotes.takeEscape_append ends, ?_⟩
  · intro v escapes nonempty written
    have named := (spellsName_escaped written).takeName_eq
    have quoted := takeString_escaped (.inl rfl : IsQuote '"') written ['"']
    rw [takeString_quote, List.append_nil] at quoted
    obtain ⟨more, split, valid⟩ :=
      exists_escaped (mt String.toList_eq_nil_iff.mp nonempty) written
    have string := tokenizeChars_string quoted
    rw [split] at named
    have starts : startsName ('\\' :: more) = true := valid
    have ident := tokenizeChars_of_startsName starts named
    have hash := tokenizeChars_hash valid named
    rw [← split, String.ofList_toList] at ident hash
    rw [String.ofList_toList] at string
    refine ⟨?_, ?_, ?_⟩ <;> rw [tokenize]
    · simpa using ident
    · simpa using hash
    · simpa using string
  · intro text name spells
    refine ⟨spells.takeName_backslash, fun starts => ?_⟩
    have whole := tokenizeChars_of_startsName starts spells.takeName_backslash
    rw [tokenize]
    simpa using whole

theorem tokenize_escaped_quote :
    (tokenize (String.ofList (escaped ["20".toList, "000022".toList, "5C".toList, "0".toList])) =
        ⟨[.ident " \"\\\uFFFD", .endOfFile], []⟩ ∧
      tokenize ("#" ++
          String.ofList (escaped ["20".toList, "000022".toList, "5C".toList, "0".toList])) =
        ⟨[.hash " \"\\\uFFFD", .endOfFile], []⟩ ∧
      tokenize ("\"" ++
          String.ofList (escaped ["20".toList, "000022".toList, "5C".toList, "0".toList]) ++ "\"") =
        ⟨[.string " \"\\\uFFFD", .endOfFile], []⟩) ∧
      takeEscape ("D800".toList ++ "g".toList) = ('\uFFFD', afterDigits "g".toList) ∧
      takeName ("a".toList ++ ['\\']) = ("a".toList ++ ['\uFFFD'], []) ∧
      tokenize (String.ofList "a".toList ++ "\\") =
        ⟨[.ident (String.ofList "a".toList ++ "\uFFFD"), .endOfFile], []⟩ := by
  have space : Denotes "20".toList ' ' := .character (by decide) (by decide) ⟨0, by decide⟩
  have quote : Denotes "000022".toList '"' := .character (by decide) (by decide) ⟨4, by decide⟩
  have backslash : Denotes "5C".toList '\\' := .character (by decide) (by decide) ⟨0, by decide⟩
  have zero : Denotes "0".toList '\uFFFD' := .replaced (by decide) (.inl rfl) ⟨0, by decide⟩
  have surrogate : Denotes "D800".toList '\uFFFD' :=
    .replaced (by decide) (.inr (.inl ⟨Nat.le_refl _, by decide⟩)) ⟨0, by decide⟩
  have written := List.Forall₂.cons space (.cons quote (.cons backslash (.cons zero .nil)))
  have ends : EndsDigits "D800".toList "g".toList := by
    refine .inr fun d first => ?_
    obtain rfl : 'g' = d := by simpa using first
    decide
  have name : SpellsName "a".toList "a".toList := .plain (by decide) .nil
  obtain ⟨escapes, escape, lone⟩ := tokenize_escaped
  exact ⟨escapes (by decide) written, escape surrogate ends,
    (lone name).1, (lone name).2 (by decide)⟩

end PagedHtml.Css
