/-
**Lexemes: the tokens of text without backslashes, as they are written.**

Where there is no escape a token holds only what the lexer takes for one: its names are runs of the
characters of names, its strings have no line break, its addresses no space. `Token.IsLexeme` says
this kind by kind, and `Numeral.literal` is the literal that a numeral is written as.

* `Lexer.isLexeme_tokenAt`: the tokens of a text without backslashes are lexemes, errors apart;
* `Numeral.text_literal`: a numeral is written as a literal, if it is not infinite;
* `Numeral.mem_css`: the characters that numerals are written with.
-/

import PagedHtml.Proofs.Css.Lexing
import PagedHtml.Proofs.Number.Written
import PagedHtml.Proofs.Text.LetterCase

namespace PagedHtml.Css

open Text (isSpace)
open Number (Literal)
open Scan

/-- What holds of all characters of a list is decided along the list, not over all characters. -/
instance decidableForallMem (p : Char → Prop) [DecidablePred p] (chars : List Char) :
    Decidable (∀ c ∈ chars, p c) :=
  List.decidableBAll p chars

/-! ### Numerals -/

namespace Numeral

/-- The literal that a numeral is written as. -/
def literal (n : Numeral) : Literal :=
  match n.integer with
  | some i => .ofInt i
  | none => .ofDouble n.value

/-- That a numeral is written with digits: what is no whole number of 64 bits has to be finite. -/
def IsWritable (n : Numeral) : Prop := n.integer = none → n.value.isInfinite = false

/-- What a numeral is read as from its text. -/
def reread (n : Numeral) : Numeral := ⟨n.literal.value, n.literal.integer?⟩

/-- That a numeral is read from some literal. -/
def IsRead (n : Numeral) : Prop := ∃ l : Literal, n = ⟨l.value, l.integer?⟩

theorem isPositional_literal (n : Numeral) : n.literal.IsPositional := by
  rw [literal]
  split
  · exact Literal.isPositional_ofInt _
  · exact Literal.isPositional_ofDouble _

theorem text_literal {n : Numeral} (writable : n.IsWritable) : n.literal.text = n.css.toList := by
  rw [literal, css]
  cases integer : n.integer with
  | some i => exact Literal.text_ofInt i
  | none => exact Literal.text_ofDouble (writable integer)

end Numeral

/-! ### The characters of numerals -/

/-- The words that are written for what has no digits. -/
theorem Numeral.css_of_not_isWritable {n : Numeral} (word : ¬ n.IsWritable) :
    n.css ∈ ["NaN", "-inf", "inf"] := by
  obtain ⟨none, infinite⟩ : n.integer = none ∧ n.value.isInfinite = true := by
    simpa [IsWritable] using word
  rw [css, none]
  simp only [Number.Double.plain, infinite, if_true, Number.Double.signText]
  split
  · simp
  · split <;> simp

/-- The characters that numerals are written with. -/
theorem Numeral.mem_css {n : Numeral} {c : Char} (member : c ∈ n.css.toList) :
    c.isDigit = true ∨ c ∈ "-.infNa".toList := by
  by_cases writable : n.IsWritable
  · obtain ⟨minus, -, whole, fraction, exponent⟩ := n.isPositional_literal
    rw [← text_literal writable, Literal.text, exponent, Option.map_none, Option.getD_none,
      List.append_nil, List.mem_append, List.mem_append] at member
    rcases member with (sign | digit) | point
    · rw [minus c (Option.mem_toList.mp sign)]
      exact .inr (by decide)
    · exact .inl (whole c digit)
    · cases same : n.literal.fraction with
      | nil =>
        rw [same] at point
        cases point
      | cons d more =>
        rw [same] at point fraction
        rcases List.mem_cons.mp point with rfl | digit
        · exact .inr (by decide)
        · exact .inl (fraction c digit)
  · have letters : ∀ word ∈ ["NaN", "-inf", "inf"], ∀ c ∈ word.toList, c ∈ "-.infNa".toList := by
      decide
    exact .inr (letters n.css (css_of_not_isWritable writable) c member)

theorem Numeral.css_ne_nil (n : Numeral) : n.css.toList ≠ [] := by
  by_cases writable : n.IsWritable
  · rw [← text_literal writable]
    simp [Literal.text, n.isPositional_literal.whole_ne_nil]
  · have words : ∀ word ∈ ["NaN", "-inf", "inf"], word.toList ≠ [] := by decide
    exact words n.css (css_of_not_isWritable writable)

theorem Numeral.notMem_css {c : Char} (digit : c.isDigit = false)
    (other : c ∉ "-.infNa".toList) (n : Numeral) : c ∉ n.css.toList := by
  intro member
  rcases mem_css member with isDigit | same
  · rw [isDigit] at digit
    cases digit
  · exact other same

/-! ### Lexemes -/

/-- A name as the lexer takes it. -/
def IsName (chars : List Char) : Prop :=
  startsName chars = true ∧ ∀ c ∈ chars, isNameChar c = true

/-- A character that may stand for itself as a token. -/
def IsDelim (c : Char) : Prop :=
  Lexer.punctuation? c = none ∧ isSpace c = false ∧ c ≠ '"' ∧ c ≠ '\'' ∧ c ≠ '\\'

/-- **A token of a text without backslashes**, neither an error nor the end. -/
def Token.IsLexeme : Token → Prop
  | ident name | function name | atKeyword name => IsName name.toList
  | hash name => name.toList ≠ [] ∧ ∀ c ∈ name.toList, isNameChar c = true
  | string text => ∀ c ∈ text.toList, c ≠ '\n' ∧ c ≠ '\\'
  | url text => ∀ c ∈ text.toList, isSpace c = false ∧ c ≠ '"' ∧ c ≠ '\'' ∧ c ≠ '(' ∧ c ≠ ')' ∧
      c ≠ '\\'
  | delim c => IsDelim c
  | number n | percentage n => n.IsRead
  | dimension n unit => n.IsRead ∧ IsName unit.toList
  | badString | badUrl | endOfFile => False
  | whitespace | commentOpen | commentClose | colon | semicolon | comma | leftBracket | rightBracket
  | leftParen | rightParen | leftBrace | rightBrace => True

/-! ### Names -/

section

variable {c : Char} {chars rest : List Char}

theorem not_isDigit_of_isNameStart (start : isNameStart c = true) : c.isDigit = false := by
  by_contra digit
  have bounds := Text.isDigit_iff.mp (eq_true_of_ne_false digit)
  have cases : (c.isAlpha = true ∨ c = '_') ∨ Text.isAscii c = false := by
    simpa [isNameStart] using start
  rcases cases with (letter | rfl) | wide
  · have range := Text.isAlpha_iff.mp letter
    omega
  · exact absurd bounds (by decide)
  · rw [Text.isAscii, decide_eq_false_iff_not] at wide
    omega

theorem isNameStart_ne {d : Char} (start : isNameStart c = true) (other : isNameStart d = false) :
    c ≠ d := by
  rintro rfl
  rw [start] at other
  cases other

theorem backslash_notMem_of_isNameChar (names : ∀ c ∈ chars, isNameChar c = true) : '\\' ∉ chars :=
  fun member => absurd (names _ member) (by decide)

/-- A name is taken with the characters of names behind it. -/
theorem takeName_append_names (names : ∀ c ∈ chars, isNameChar c = true) (plain : '\\' ∉ rest) :
    takeName (chars ++ rest) =
      (chars ++ rest.takeWhile isNameChar, rest.dropWhile isNameChar) := by
  have plainAll : '\\' ∉ chars ++ rest := by
    rw [List.mem_append, not_or]
    exact ⟨backslash_notMem_of_isNameChar names, plain⟩
  rw [takeName_eq plainAll, List.takeWhile_append_of_pos names,
    List.dropWhile_append_of_pos names]

theorem takeWhile_eq_nil {p : Char → Bool} (stops : ∀ c ∈ rest.head?, p c = false) :
    rest.takeWhile p = [] ∧ rest.dropWhile p = rest := by
  cases rest with
  | nil => exact ⟨rfl, rfl⟩
  | cons c more =>
    have stop : ¬ p c = true := by simp [stops c rfl]
    exact ⟨List.takeWhile_cons_of_neg stop, List.dropWhile_cons_of_neg stop⟩

/-- What is left starts with nothing that is dropped. -/
theorem head?_dropWhile (p : Char → Bool) (chars : List Char) :
    ∀ c ∈ (chars.dropWhile p).head?, p c = false := by
  intro c first
  have visible := List.head?_dropWhile_not p chars
  rw [Option.mem_def] at first
  rw [first] at visible
  simpa using visible

theorem head?_of_dropWhile_eq {p : Char → Bool} (same : rest.dropWhile p = rest) :
    ∀ c ∈ rest.head?, p c = false :=
  same ▸ head?_dropWhile p rest

theorem startsName_cons {c : Char} (hyphen : c ≠ '-') (escape : c ≠ '\\') (rest : List Char) :
    startsName (c :: rest) = isNameStart c := by
  rw [startsName] <;> assumption

/-- The three ways in which a name starts. -/
theorem head_of_startsName (starts : startsName (c :: rest) = true) :
    isNameStart c = true ∨ c = '\\' ∨
      c = '-' ∧ ∃ d more, rest = d :: more ∧ (isNameStart d = true ∨ d = '-' ∨ d = '\\') := by
  by_cases hyphen : c = '-'
  · subst hyphen
    refine .inr (.inr ⟨rfl, ?_⟩)
    cases rest with
    | nil => cases starts
    | cons d more =>
      refine ⟨d, more, rfl, ?_⟩
      simp only [startsName, Bool.or_eq_true, Bool.and_eq_true, beq_iff_eq] at starts
      rcases starts with (start | hyphen) | ⟨escape, -⟩
      · exact .inl start
      · exact .inr (.inl hyphen)
      · exact .inr (.inr escape)
  · by_cases escape : c = '\\'
    · exact .inr (.inl escape)
    · rw [startsName_cons hyphen escape] at starts
      exact .inl starts

/-- The two ways in which a name starts that holds no backslash. -/
theorem cases_of_startsName (starts : startsName chars = true) (plain : '\\' ∉ chars) :
    (∃ c tail, chars = c :: tail ∧ isNameStart c = true) ∨
      ∃ c tail, chars = '-' :: c :: tail ∧ (isNameStart c = true ∨ c = '-') := by
  cases chars with
  | nil => cases starts
  | cons c tail =>
    rcases head_of_startsName starts with start | rfl | ⟨rfl, d, more, rfl, second⟩
    · exact .inl ⟨c, tail, rfl, start⟩
    · exact absurd List.mem_cons_self plain
    · have notEscape : d ≠ '\\' := by
        rintro rfl
        exact plain (by simp)
      exact .inr ⟨d, more, rfl, second.imp_right fun other => other.resolve_right notEscape⟩

theorem startsUnsigned_eq_false (start : isNameStart c = true ∨ c = '-' ∨ c = '\\')
    (rest : List Char) : startsUnsigned (c :: rest) = false := by
  rcases start with start | rfl | rfl
  · simp [startsUnsigned, not_isDigit_of_isNameStart start,
      isNameStart_ne start (by decide : isNameStart '.' = false)]
  · simp [startsUnsigned]
  · simp [startsUnsigned]

/-- No name starts as a number. -/
theorem startsNumber_of_startsName (starts : startsName chars = true) :
    startsNumber chars = false := by
  cases chars with
  | nil => cases starts
  | cons c rest =>
    rcases head_of_startsName starts with start | rfl | ⟨rfl, d, more, rfl, second⟩
    · have plus := isNameStart_ne start (by decide : isNameStart '+' = false)
      have minus := isNameStart_ne start (by decide : isNameStart '-' = false)
      rw [startsNumber, if_neg (by simp [plus, minus])]
      exact startsUnsigned_eq_false (.inl start) rest
    · exact startsUnsigned_eq_false (.inr (.inr rfl)) rest
    · exact startsUnsigned_eq_false second more

theorem startsName_of_isNameStart (start : isNameStart c = true) (rest : List Char) :
    startsName (c :: rest) = true := by
  rw [startsName]
  · exact start
  · exact isNameStart_ne start (by decide)
  · exact isNameStart_ne start (by decide)

/-- The longest name at the front is one, if a name starts there. -/
theorem isName_takeWhile (starts : startsName chars = true) (plain : '\\' ∉ chars) :
    IsName (chars.takeWhile isNameChar) := by
  refine ⟨?_, fun c member => List.all_eq_true.mp List.all_takeWhile c member⟩
  rcases cases_of_startsName starts plain with ⟨c, tail, rfl, start⟩ | ⟨c, tail, rfl, start⟩
  · rw [List.takeWhile_cons_of_pos (by simp [isNameChar, start])]
    exact startsName_of_isNameStart start _
  · have second : isNameChar c = true := by
      rcases start with start | rfl
      · simp [isNameChar, start]
      · decide
    rw [List.takeWhile_cons_of_pos (by decide), List.takeWhile_cons_of_pos second]
    rcases start with start | rfl <;> simp [startsName, *]

theorem IsName.ne_nil (name : IsName chars) : chars ≠ [] := by
  rintro rfl
  exact absurd name.1 (by decide)

/-- A name starts as one, whatever is behind it. -/
theorem IsName.startsName_append (name : IsName chars) (rest : List Char) :
    startsName (chars ++ rest) = true := by
  have plain := backslash_notMem_of_isNameChar name.2
  rcases cases_of_startsName name.1 plain with ⟨c, tail, rfl, start⟩ | ⟨c, tail, rfl, start | rfl⟩
  · exact startsName_of_isNameStart start _
  · simp [startsName, start]
  · simp [startsName]

/-- A name does not start as a number, whatever is behind it. -/
theorem IsName.startsNumber_append (name : IsName chars) (rest : List Char) :
    startsNumber (chars ++ rest) = false :=
  startsNumber_of_startsName (name.startsName_append rest)

end

/-! ### The text of a lexeme -/

section

variable {token : Token}

/-- No lexeme is written with a backslash. -/
theorem Token.IsLexeme.backslash_notMem (lexeme : token.IsLexeme) : '\\' ∉ token.css.toList := by
  have numeral (n : Numeral) : '\\' ∉ n.css.toList := n.notMem_css (by decide) (by decide)
  cases token with
  | ident name => exact backslash_notMem_of_isNameChar lexeme.2
  | function name | atKeyword name => simpa [css] using backslash_notMem_of_isNameChar lexeme.2
  | hash name => simpa [css] using backslash_notMem_of_isNameChar lexeme.2
  | string text => simpa [css] using fun member => (lexeme _ member).2 rfl
  | url text => simpa [css] using fun member => (lexeme _ member).2.2.2.2.2 rfl
  | delim c => simpa [css] using lexeme.2.2.2.2.symm
  | number n => exact numeral n
  | percentage n => simpa [css] using numeral n
  | dimension n unit => simpa [css] using ⟨numeral n, backslash_notMem_of_isNameChar lexeme.2.2⟩
  | badString | badUrl | endOfFile => exact lexeme.elim
  | _ => decide

/-- What has a property that no space has is no space. -/
theorem isSpace_eq_false_of (p : Char → Prop) {c : Char} (holds : p c)
    (spaces : ∀ d ∈ "\t\n\x0C\r ".toList, ¬ p d) : isSpace c = false := by
  by_contra space
  rw [Bool.not_eq_false] at space
  exact spaces c (by simpa [isSpace, or_assoc] using space) holds

theorem isSpace_of_isNameChar {c : Char} (name : isNameChar c = true) : isSpace c = false :=
  isSpace_eq_false_of (isNameChar · = true) name (by decide)

theorem Numeral.isSpace_of_mem_css {n : Numeral} {c : Char} (member : c ∈ n.css.toList) :
    isSpace c = false :=
  isSpace_eq_false_of (fun c => c.isDigit = true ∨ c ∈ "-.infNa".toList) (mem_css member)
    (by decide)

/-- Only a space and a string are written with spaces. -/
theorem Token.IsLexeme.isSpace_of_mem (lexeme : token.IsLexeme) (visible : token ≠ .whitespace)
    (unquoted : ∀ text, token ≠ .string text) {c : Char} (member : c ∈ token.css.toList) :
    isSpace c = false := by
  cases token with
  | ident name => exact isSpace_of_isNameChar (lexeme.2 c member)
  | function name =>
    rcases (by simpa [css] using member : c ∈ name.toList ∨ c = '(') with inside | rfl
    · exact isSpace_of_isNameChar (lexeme.2 c inside)
    · decide
  | atKeyword name =>
    rcases (by simpa [css] using member : c = '@' ∨ c ∈ name.toList) with rfl | inside
    · decide
    · exact isSpace_of_isNameChar (lexeme.2 c inside)
  | hash name =>
    rcases (by simpa [css] using member : c = '#' ∨ c ∈ name.toList) with rfl | inside
    · decide
    · exact isSpace_of_isNameChar (lexeme.2 c inside)
  | string text => exact absurd rfl (unquoted text)
  | url text =>
    rcases (by simpa [css, or_assoc] using member :
      c ∈ "url(".toList ∨ c ∈ text.toList ∨ c = ')') with outside | inside | rfl
    · exact (by decide : ∀ c ∈ "url(".toList, isSpace c = false) c outside
    · exact (lexeme c inside).1
    · decide
  | delim d =>
    obtain rfl : c = d := by simpa [css] using member
    exact lexeme.2.1
  | number n => exact n.isSpace_of_mem_css member
  | percentage n =>
    rcases (by simpa [css] using member : c ∈ n.css.toList ∨ c = '%') with inside | rfl
    · exact n.isSpace_of_mem_css inside
    · decide
  | dimension n unit =>
    rcases (by simpa [css] using member : c ∈ n.css.toList ∨ c ∈ unit.toList) with value | inside
    · exact n.isSpace_of_mem_css value
    · exact isSpace_of_isNameChar (lexeme.2.2 c inside)
  | whitespace => exact absurd rfl visible
  | badString | badUrl | endOfFile => exact lexeme.elim
  | _ => exact (by decide : ∀ c ∈ _, isSpace c = false) c member

theorem Token.IsLexeme.css_ne_nil (lexeme : token.IsLexeme) : token.css.toList ≠ [] := by
  cases token with
  | ident name => exact lexeme.ne_nil
  | number n => exact n.css_ne_nil
  | dimension n unit =>
    rw [css, String.toList_append]
    exact List.append_ne_nil_of_left_ne_nil n.css_ne_nil _
  | badString | badUrl | endOfFile => exact lexeme.elim
  | _ => simp [css]

/-- A lexeme is written with no space at its ends, unless it is a space. -/
theorem Token.IsLexeme.isSpace_of_end (lexeme : token.IsLexeme) (visible : token ≠ .whitespace) :
    (∀ c ∈ token.css.toList.head?, isSpace c = false) ∧
      ∀ c ∈ token.css.toList.getLast?, isSpace c = false := by
  by_cases quoted : ∃ text, token = .string text
  · obtain ⟨text, rfl⟩ := quoted
    have split : (string text).css.toList = '"' :: text.toList ++ ['"'] := by simp [css]
    rw [split, List.getLast?_concat]
    simp [isSpace]
  · have unquoted : ∀ text, token ≠ .string text := fun text same => quoted ⟨text, same⟩
    exact ⟨fun c first => lexeme.isSpace_of_mem visible unquoted (List.mem_of_head? first),
      fun c last => lexeme.isSpace_of_mem visible unquoted (List.mem_of_getLast? last)⟩

end

/-! ### The tokens of a text -/

namespace Lexer

variable {c : Char} {chars rest : List Char}

theorem takeString_plain (quote : Char) (plain : '\\' ∉ chars) :
    ∀ c ∈ (takeString quote chars).chars, c ≠ '\n' ∧ c ≠ '\\' := by
  induction chars with
  | nil => simp [takeString]
  | cons d more ih =>
    obtain ⟨notEscape, plainMore⟩ := not_or.mp (mt List.mem_cons.mpr plain)
    rw [takeString_cons quote (Ne.symm notEscape)]
    split
    · simp
    · split
      · simp
      · next notBreak =>
        exact List.forall_mem_cons.mpr ⟨⟨notBreak, Ne.symm notEscape⟩, ih plainMore⟩

theorem takeAddress_plain (plain : '\\' ∉ chars) :
    ∀ c ∈ (takeAddress chars).chars,
      isSpace c = false ∧ c ≠ '"' ∧ c ≠ '\'' ∧ c ≠ '(' ∧ c ≠ ')' ∧ c ≠ '\\' := by
  fun_induction takeAddress chars with
  | case1 | case2 | case3 | case4 | case5 | case6 => simp
  | case7 | case8 => exact absurd List.mem_cons_self plain
  | case9 d more notClosing notSpace notQuote notEscape ih =>
    obtain ⟨-, plainMore⟩ := not_or.mp (mt List.mem_cons.mpr plain)
    simp only [not_or] at notQuote
    exact List.forall_mem_cons.mpr ⟨⟨eq_false_of_ne_true notSpace, notQuote.1, notQuote.2.1,
      notQuote.2.2, notClosing, notEscape⟩, ih plainMore⟩

theorem isLexeme_stringToken (quote : Char) (plain : '\\' ∉ rest)
    (sound : ¬ (stringToken quote rest).token.IsVoid) :
    (stringToken quote rest).token.IsLexeme := by
  have text : (Token.string (String.ofList (takeString quote rest).chars)).IsLexeme := by
    simpa [Token.IsLexeme] using takeString_plain quote plain
  revert sound
  simp only [stringToken]
  split
  · exact fun _ => text
  · exact fun sound => absurd (.inl rfl) sound
  · exact fun _ => text

theorem isLexeme_hashToken (plain : '\\' ∉ rest) : (hashToken rest).token.IsLexeme := by
  have noEscape : (rest.head? == some '\\') = false := by
    rw [beq_eq_false_iff_ne]
    exact fun first => plain (List.mem_of_head? first)
  simp only [hashToken, noEscape, Bool.false_and, Bool.or_false, takeName_eq plain]
  split
  · next named =>
    rw [Token.IsLexeme, String.toList_ofList]
    refine ⟨?_, fun d member => List.all_eq_true.mp List.all_takeWhile d member⟩
    cases rest with
    | nil => cases named
    | cons d more =>
      rw [List.takeWhile_cons_of_pos (show isNameChar d = true from named)]
      exact List.cons_ne_nil _ _
  · exact ⟨rfl, rfl, by decide⟩

theorem isLexeme_numericToken (plain : '\\' ∉ chars) : (numericToken chars).token.IsLexeme := by
  have suffix := Literal.take_suffix chars
  rw [numericToken_eq]
  generalize Literal.take chars = taken at suffix
  obtain ⟨literal, after⟩ := taken
  have plainAfter : '\\' ∉ after := mt (suffix.mem ·) plain
  simp only [takeName_eq plainAfter]
  split_ifs with unit
  · exact ⟨⟨literal, rfl⟩, by simpa using isName_takeWhile unit plainAfter⟩
  · exact ⟨literal, rfl⟩
  · exact ⟨literal, rfl⟩

theorem isLexeme_addressToken (plain : '\\' ∉ chars)
    (sound : ¬ (addressToken chars).token.IsVoid) : (addressToken chars).token.IsLexeme := by
  have text : (Token.url (String.ofList (takeAddress chars).chars)).IsLexeme := by
    simpa [Token.IsLexeme] using takeAddress_plain plain
  revert sound
  simp only [addressToken]
  split
  · exact fun _ => text
  · exact fun sound => absurd (.inr (.inl rfl)) sound
  · exact fun _ => text

theorem isLexeme_namedToken (word : startsName chars = true) (plain : '\\' ∉ chars)
    (sound : ¬ (namedToken chars).token.IsVoid) : (namedToken chars).token.IsLexeme := by
  have isName : IsName (String.ofList (takeName chars).1).toList := by
    rw [String.toList_ofList, takeName_eq plain]
    exact isName_takeWhile word plain
  have plainArgument : '\\' ∉ (takeName chars).2.tail.dropWhile isSpace := fun member =>
    plain ((takeName_suffix chars).mem ((List.tail_suffix _).mem
      ((List.dropWhile_suffix isSpace).mem member)))
  revert sound
  rw [namedToken_eq]
  simp only
  split_ifs
  · exact fun _ => isName
  · exact isLexeme_addressToken plainArgument
  · exact fun _ => isName
  · exact fun _ => isName

/-- **The tokens of a text without backslashes are lexemes**, errors apart. -/
theorem isLexeme_tokenAt (plain : '\\' ∉ c :: rest) (sound : ¬ (tokenAt c rest).token.IsVoid) :
    (tokenAt c rest).token.IsLexeme := by
  obtain ⟨notEscape, plainRest⟩ := not_or.mp (mt List.mem_cons.mpr plain)
  revert sound
  unfold tokenAt
  split
  · next token punctuation =>
    intro _
    unfold punctuation? at punctuation
    split at punctuation <;> cases punctuation <;> trivial
  · next punctuation =>
    split_ifs with space quote hash digits close opening keyword word
    · exact fun _ => trivial
    · exact isLexeme_stringToken c plainRest
    · exact fun _ => isLexeme_hashToken plainRest
    · exact fun _ => isLexeme_numericToken plain
    · exact fun _ => trivial
    · exact fun _ => trivial
    · intro _
      rw [takeName_eq plainRest]
      simpa [Token.IsLexeme] using isName_takeWhile keyword.2 plainRest
    · exact isLexeme_namedToken word plain
    · intro _
      rw [not_or] at quote
      exact ⟨punctuation, eq_false_of_ne_true space, quote.1, quote.2, Ne.symm notEscape⟩

end Lexer

end PagedHtml.Css
