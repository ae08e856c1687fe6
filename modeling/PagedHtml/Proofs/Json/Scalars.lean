/-
**Texts and whole numbers are read back from JSON text.**

A character of quoted text is written as itself, as a backslash and a letter, or by its number, and
is read back in each case (`takeText_escape`), so a whole text is (`lexemesOf_quote`), whatever it
looks like and whatever follows it. A whole number is written with a fraction that is zero; reading
it divides the digits by ten again, which is exact (`lexemesOf_number`).
-/

import PagedHtml.Json.Text
import PagedHtml.Json.Lexeme
import PagedHtml.Proofs.Number.Whole

namespace PagedHtml.Json

open Number (Double Literal)
open Text (hexDigit)

/-! ### Texts -/

/-- **The ways in which a character is escaped.** -/
theorem escape_cases (c : Char) :
    (∃ letter, escape c = ['\\', letter] ∧ letter ≠ 'u' ∧ escaped? letter = some c) ∨
      (escape c = ['\\', 'u', '0', '0', hexDigit (c.toNat / 16), hexDigit (c.toNat % 16)] ∧
        c.toNat < 0x20) ∨
      (escape c = [c] ∧ c ≠ '"' ∧ c ≠ '\\' ∧ ¬ c.toNat < 0x20) := by
  have letter (letter : Char) (plain : letter ≠ 'u') (means : escaped? letter = some c) :
      ∃ other, ['\\', letter] = ['\\', other] ∧ other ≠ 'u' ∧ escaped? other = some c :=
    ⟨letter, rfl, plain, means⟩
  rw [escape]
  split_ifs with quote backslash backspace feed line carriage tab control
  · exact .inl (letter '"' (by decide) (by rw [quote]; rfl))
  · exact .inl (letter '\\' (by decide) (by rw [backslash]; rfl))
  · exact .inl (letter 'b' (by decide) (by rw [backspace]; rfl))
  · exact .inl (letter 'f' (by decide) (by rw [feed]; rfl))
  · exact .inl (letter 'n' (by decide) (by rw [line]; rfl))
  · exact .inl (letter 'r' (by decide) (by rw [carriage]; rfl))
  · exact .inl (letter 't' (by decide) (by rw [tab]; rfl))
  · exact .inr (.inl ⟨rfl, control⟩)
  · exact .inr (.inr ⟨rfl, quote, backslash, control⟩)

theorem length_le_byteLength (chars : List Char) : chars.length ≤ byteLength chars := by
  have more (start : Nat) :
      start + chars.length ≤ chars.foldl (fun length c => length + c.utf8Size) start := by
    induction chars generalizing start with
    | nil => exact le_rfl
    | cons c rest ih =>
      have size := c.utf8Size_pos
      have later := ih (start + c.utf8Size)
      rw [List.foldl_cons, List.length_cons]
      omega
  have all := more 0
  rwa [zero_add] at all

/-- The four digits of a control character have its number. -/
theorem hexNumber?_control {c : Char} (control : c.toNat < 0x20) :
    Text.hexNumber? ['0', '0', hexDigit (c.toNat / 16), hexDigit (c.toNat % 16)] =
      some c.toNat := by
  have first := Text.hexValue?_hexDigit (show c.toNat / 16 < 16 by omega)
  have second := Text.hexValue?_hexDigit (Nat.mod_lt c.toNat (by decide : 16 > 0))
  have zero : Text.hexValue? '0' = some 0 := rfl
  simp only [Text.hexNumber?, List.foldlM_cons, List.foldlM_nil, zero, first, second,
    Option.map_some, Option.bind_eq_bind, Option.bind_some, Option.pure_def, Option.some.injEq]
  omega

/-- **A character that is escaped is read back**: its unit is its own character. -/
theorem takeText_escape (c : Char) (rest : List Char) :
    ∃ unit, (unit = .char c ∨ unit = .unit c.toNat ∧ c.toNat < 0x20) ∧
      takeText (escape c ++ rest) = (unit :: (takeText rest).1, (takeText rest).2) := by
  rcases escape_cases c with ⟨letter, written, plain, means⟩ | ⟨written, control⟩ |
    ⟨written, quote, backslash, visible⟩
  · refine ⟨.char c, .inl rfl, ?_⟩
    rw [written]
    simp only [List.cons_append, List.nil_append]
    rw [takeText]
    · simp only [means]
    · exact plain
  · refine ⟨.unit c.toNat, .inr ⟨rfl, control⟩, ?_⟩
    have long : ¬ byteLength
        ('0' :: '0' :: hexDigit (c.toNat / 16) :: hexDigit (c.toNat % 16) :: rest) < 4 := by
      have bound := length_le_byteLength
        ('0' :: '0' :: hexDigit (c.toNat / 16) :: hexDigit (c.toNat % 16) :: rest)
      simp only [List.length_cons] at bound
      omega
    rw [written]
    simp only [List.cons_append, List.nil_append]
    rw [takeText, if_neg long]
    simp only [hexNumber?_control control]
  · refine ⟨.char c, .inl rfl, ?_⟩
    rw [written, List.singleton_append, takeText, if_neg visible]
    · exact fun same => quote same
    · exact fun same => absurd same backslash
    · exact fun _ same => absurd same backslash
    · exact fun _ _ same => absurd same backslash

/-- **Characters that are escaped are read back**, up to the closing quote. -/
theorem takeText_quoted (chars rest : List Char) :
    ∃ units, takeText (chars.flatMap escape ++ '"' :: rest) = (units, .ok rest) ∧
      pairUnits units = some chars := by
  induction chars with
  | nil => exact ⟨[], by rw [List.flatMap_nil, List.nil_append, takeText], rfl⟩
  | cons c chars ih =>
    obtain ⟨units, taken, paired⟩ := ih
    obtain ⟨unit, isChar, escaped⟩ := takeText_escape c (chars.flatMap escape ++ '"' :: rest)
    refine ⟨unit :: units, ?_, ?_⟩
    · rw [List.flatMap_cons, List.append_assoc, escaped, taken]
    · rcases isChar with rfl | ⟨rfl, control⟩
      · rw [pairUnits, paired, Option.map_some]
      · have trailing : isTrailing c.toNat = false := by
          rw [isTrailing, Bool.and_eq_false_iff]
          exact .inl (decide_eq_false (by omega))
        have leading : isLeading c.toNat = false := by
          rw [isLeading, Bool.and_eq_false_iff]
          exact .inl (decide_eq_false (by omega))
        rw [pairUnits.eq_def]
        simp only [trailing, leading, paired, Char.ofNat_toNat, Bool.false_eq_true, if_false,
          Option.map_some]

theorem lexemesOf_cons {c : Char} (visible : isSpace c = false) (rest : List Char) :
    lexemesOf (c :: rest) = (lexemeAt c rest).1 :: lexemesOf (lexemeAt c rest).2 := by
  rw [lexemesOf, visible]
  rfl

/-- **A text in quotes is read back**, whatever stands behind it. -/
theorem lexemesOf_quote (text : String) (rest : List Char) :
    lexemesOf ((quote text).toList ++ rest) = .text (some text) :: lexemesOf rest := by
  obtain ⟨units, taken, paired⟩ := takeText_quoted text.toList rest
  have lexeme : lexemeAt '"' (text.toList.flatMap escape ++ '"' :: rest) =
      (.text (some text), rest) := by
    show textLexeme (text.toList.flatMap escape ++ '"' :: rest) = _
    simp only [textLexeme, taken, paired, Option.map_some, String.ofList_toList]
  rw [quote, String.toList_ofList, List.cons_append, List.append_assoc, List.singleton_append,
    lexemesOf_cons rfl, lexeme]

/-! ### Whole numbers -/

/-- That a value ends here: at the end of the text, or before a comma or a closing bracket. -/
def IsEnd (rest : List Char) : Prop := ∀ c ∈ rest.head?, c = ',' ∨ c = ']' ∨ c = '\x7d'

/-- The literal that a whole number is written as. -/
def wholeLiteral (n : Nat) : Literal := ⟨none, Nat.toDigits 10 n, ['0'], none⟩

theorem isPositional_wholeLiteral (n : Nat) : (wholeLiteral n).IsPositional where
  sign := nofun
  whole_ne_nil := Nat.toDigits_ne_nil
  isDigit_whole _ := Number.isDigit_of_mem_toDigits
  isDigit_fraction := by simp [wholeLiteral]
  exponent := rfl

/-- **Digits are added up** as long as their number is below `2 ^ 64`. -/
theorem Scaled.foldl_addWhole (digits : List Char) (start : Nat) (power : Int)
    (small : Nat.ofDigitChars 10 digits start < 2 ^ 64) :
    digits.foldl addWhole ⟨start, power, false⟩ =
      ⟨Nat.ofDigitChars 10 digits start, power, false⟩ := by
  induction digits generalizing start with
  | nil => rfl
  | cons d digits ih =>
    rw [Nat.ofDigitChars_cons] at small ⊢
    have least : 10 * start + (d.toNat - '0'.toNat) ≤
        Nat.ofDigitChars 10 digits (10 * start + (d.toNat - '0'.toNat)) := by
      rw [Nat.ofDigitChars_eq_ofDigitChars_zero]
      exact (Nat.le_mul_of_pos_left _ (by positivity)).trans (Nat.le_add_right _ _)
    have fits : ¬ (false || decide
        (0x10000000000000000 ≤ 10 * start + (d.toNat - '0'.toNat))) = true := by
      rw [Bool.false_or, decide_eq_true_eq]
      omega
    rw [List.foldl_cons, addWhole, if_neg fits, ih _ small]

/-- The significand of a whole number has one digit more than the number. -/
theorem Scaled.ofLiteral_wholeLiteral {n : Nat} (small : 10 * n < 2 ^ 64) :
    ofLiteral (wholeLiteral n) = ⟨10 * n, -1, false⟩ := by
  have whole : Nat.ofDigitChars 10 (Nat.toDigits 10 n) 0 = n := Nat.ofDigitChars_ten_toDigits
  have digits := foldl_addWhole (Nat.toDigits 10 n) 0 0 (by rw [whole]; omega)
  have fits : ¬ (false || decide (0x10000000000000000 ≤ 10 * n + 0)) = true := by
    rw [Bool.false_or, decide_eq_true_eq]
    omega
  simp only [ofLiteral, wholeLiteral, digits, whole, List.foldl_cons, List.foldl_nil]
  rw [addFraction]
  exact if_neg fits

/-- **The value of a whole number is read exactly.** -/
theorem numberValue?_wholeLiteral {n : Nat} (small : 10 * n < 2 ^ 53) :
    numberValue? (wholeLiteral n) = some (Double.ofNat n) := by
  rw [numberValue?, Scaled.ofLiteral_wholeLiteral (small.trans (by decide))]
  rcases Nat.eq_zero_or_pos n with rfl | positive
  · rfl
  · obtain ⟨code, whole⟩ := Double.exists_isWhole (Nat.mul_pos (by decide : 0 < 10) positive) small
    have ten : tenTo 1 = Double.ofNat 10 := by decide +kernel
    have nonzero : (Double.ofNat (10 * n)).code ≠ 0 := by
      rw [whole.ofNat_eq]
      exact whole.code_ne_zero
    have divided : divideByTenTo (Double.ofNat (10 * n)) 1 = Double.ofNat n := by
      rw [divideByTenTo, if_neg nonzero, if_pos (by decide), ten,
        Double.div_ofNat positive (by decide) small]
    have some : ¬ (10 * n = 0 ∨ (0 : Int) < -exponentLimit) := by
      rw [not_or]
      exact ⟨by omega, by decide⟩
    show Option.map _ (if 10 * n = 0 ∨ (0 : Int) < -exponentLimit then _ else
      (if exponentLimit < 0 then none else timesTenTo? (Double.ofNat (10 * n)) (.negSucc 0))) = _
    rw [if_neg some, if_neg (by decide), timesTenTo?, divided]
    rfl

/-- A number is not broken before the end of a value. -/
theorem numberBreak?_wholeLiteral (n : Nat) {rest : List Char} (ends : IsEnd rest) :
    numberBreak? (wholeLiteral n) rest = none := by
  have some : (Nat.toDigits 10 n).isEmpty = false :=
    List.isEmpty_eq_false_iff.mpr Nat.toDigits_ne_nil
  have leading :
      ¬ ((Nat.toDigits 10 n).head? = Option.some '0' ∧ 1 < (Nat.toDigits 10 n).length) := by
    rintro ⟨zero, long⟩
    rcases Nat.eq_zero_or_pos n with rfl | positive
    · exact absurd long (by decide)
    · exact Number.head?_toDigits_ne_zero positive zero
  simp only [numberBreak?, wholeLiteral, some, if_neg leading, Bool.false_eq_true, if_false,
    Option.isSome_none]
  split
  · rfl
  · next c after _ =>
    have stops := ends c rfl
    rw [if_neg]
    rcases stops with rfl | rfl | rfl <;> decide
  · rfl

theorem isSpace_of_isDigit {c : Char} (digit : c.isDigit = true) : isSpace c = false := by
  cases space : isSpace c with
  | false => rfl
  | true =>
    simp only [isSpace, Bool.or_eq_true, beq_iff_eq] at space
    rcases space with ((rfl | rfl) | rfl) | rfl <;> exact absurd digit (by decide)

theorem lexemeAt_digit {c : Char} (digit : c.isDigit = true) (rest : List Char) :
    lexemeAt c rest = numberLexeme (c :: rest) := by
  have other {d : Char} (noDigit : d.isDigit = false) : c ≠ d := by
    rintro rfl
    exact absurd digit (noDigit ▸ Bool.false_ne_true)
  rw [lexemeAt, if_neg (other rfl), if_neg (other rfl), if_neg (other rfl), if_neg (other rfl),
    if_neg (other rfl), if_neg (other rfl), if_neg (other rfl), if_neg (other rfl),
    if_neg (other rfl), if_neg (other rfl), if_pos (.inl digit)]

/-- **A whole number is written as its literal.** -/
theorem toList_number_ofNat {n : Nat} (small : n < 2 ^ 53) :
    (number (Double.ofNat n)).toList = (wholeLiteral n).text := by
  rw [number, Double.isInfinite_ofNat small, if_neg Bool.false_ne_true,
    Double.scientificBeyond_ofNat small, Literal.text, wholeLiteral]
  simp [Literal.fractionText]

/-- **A whole number is read back** before the end of a value. -/
theorem lexemesOf_number {n : Nat} (small : 10 * n < 2 ^ 53) {rest : List Char}
    (ends : IsEnd rest) : lexemesOf ((number (Double.ofNat n)).toList ++ rest) =
      .number (some (Double.ofNat n)) :: lexemesOf rest := by
  have taken : Literal.take ((wholeLiteral n).text ++ rest) = (wholeLiteral n, rest) := by
    refine Literal.take_of_endsBefore (isPositional_wholeLiteral n)
      (Literal.endsBefore_of_head fun c member => ?_)
    rcases ends c member with rfl | rfl | rfl <;> decide
  have lexeme : numberLexeme ((wholeLiteral n).text ++ rest) =
      (.number (some (Double.ofNat n)), rest) := by
    simp only [numberLexeme, taken, numberBreak?_wholeLiteral n ends,
      numberValue?_wholeLiteral small]
  obtain ⟨c, more, digits⟩ := List.exists_cons_of_ne_nil (Nat.toDigits_ne_nil (b := 10) (n := n))
  have digit : c.isDigit = true :=
    Number.isDigit_of_mem_toDigits (n := n) (digits ▸ List.mem_cons_self)
  have started : (wholeLiteral n).text ++ rest = c :: (more ++ ['.', '0'] ++ rest) := by
    rw [Literal.text, wholeLiteral, digits]
    simp [Literal.fractionText]
  rw [toList_number_ofNat (by omega), started, lexemesOf_cons (isSpace_of_isDigit digit),
    lexemeAt_digit digit, ← started, lexeme]

end PagedHtml.Json
