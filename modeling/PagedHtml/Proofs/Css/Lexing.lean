/-
**The tokens of a text stay as they are when more text is put behind it.**

A closing brace or a line break ends every token but a string, a comment, an address and an escape,
and starts none that the text in front of it could belong to (`IsStop`). In a text without
backslashes and without broken addresses that does not break off inside a token, each scanner
therefore takes what it takes of the text alone, and leaves the rest in front of such a character
(`Scan.takeName_append`, `Number.Literal.take_append` and their companions). Token by token this
gives the tokens of the whole text. Only spaces at the end of the text go on over a line break.

* `tokenizeChars_endsOnce`: the end is the last token of any text, and no other;
* `tokenizeChars_append`: behind the tokens of a text come those of the text behind it;
* `tokensOf_block`: the tokens of a text in the braces of a rule.
-/

import PagedHtml.Proofs.Css.Declarations
import Mathlib.Tactic.SplitIfs

namespace PagedHtml

open Css.Scan (isNameChar)

/-- A character that ends names and numbers, opens nothing, and is no part of a mark that another
character starts. -/
def IsStop (c : Char) : Prop := isNameChar c = false ∧ c ∉ ".+%(/*>!\\".toList

theorem isStop_brace : IsStop '\x7d' := ⟨by decide, by decide⟩

theorem isStop_newline : IsStop '\n' := ⟨by decide, by decide⟩

/-! ### Characters before a stop -/

section

variable {p : Char → Bool} {stop : Char}

theorem IsStop.ne (isStop : IsStop stop) (c : Char)
    (other : isNameChar c = true ∨ c ∈ ".+%(/*>!\\".toList) : stop ≠ c := by
  rintro rfl
  rcases other with name | mark
  · rw [isStop.1] at name
    cases name
  · exact isStop.2 mark

theorem IsStop.isNameStart (isStop : IsStop stop) : Css.Scan.isNameStart stop = false := by
  have notName := isStop.1
  rw [isNameChar, Bool.or_eq_false_iff, Bool.or_eq_false_iff] at notName
  exact notName.1.1

theorem IsStop.isDigit (isStop : IsStop stop) : stop.isDigit = false := by
  have notName := isStop.1
  rw [isNameChar, Bool.or_eq_false_iff, Bool.or_eq_false_iff] at notName
  exact notName.1.2

theorem takeWhile_append_stop (stops : p stop = false) (chars behind : List Char) :
    (chars ++ stop :: behind).takeWhile p = chars.takeWhile p := by
  induction chars with
  | nil => simp [stops]
  | cons c rest ih => simp only [List.cons_append, List.takeWhile_cons, ih]

theorem dropWhile_append_stop (stops : p stop = false) (chars behind : List Char) :
    (chars ++ stop :: behind).dropWhile p = chars.dropWhile p ++ stop :: behind := by
  induction chars with
  | nil => simp [stops]
  | cons c rest ih =>
    simp only [List.cons_append, List.dropWhile_cons, ih]
    split <;> rfl

theorem any_head?_append_stop (stops : p stop = false) (chars behind : List Char) :
    (chars ++ stop :: behind).head?.any p = chars.head?.any p := by
  cases chars with
  | nil => simp [stops]
  | cons c rest => rfl

/-- What a text starts with without going on to a character stands before that character. -/
theorem prefix_of_append_stop {chars behind lead : List Char} (without : stop ∉ lead)
    (starts : lead <+: chars ++ stop :: behind) : lead <+: chars := by
  rcases List.prefix_or_prefix_of_prefix starts (List.prefix_append chars (stop :: behind)) with
    inside | ⟨more, rfl⟩
  · exact inside
  · cases more with
    | nil => simp
    | cons c more =>
      obtain ⟨rfl, -⟩ := List.cons_prefix_cons.mp ((List.prefix_append_right_inj chars).mp starts)
      exact absurd (by simp) without

/-- What starts with a mark that does not hold the stop starts with it before the stop. -/
theorem take_append_stop_eq_iff (chars behind lead : List Char) (without : stop ∉ lead) :
    (chars ++ stop :: behind).take lead.length = lead ↔ chars.take lead.length = lead := by
  rw [eq_comm, ← List.prefix_iff_eq_take, eq_comm, ← List.prefix_iff_eq_take]
  exact ⟨prefix_of_append_stop without, fun starts => starts.trans (List.prefix_append _ _)⟩

theorem drop_append_of_take {chars : List Char} (lead tail : List Char)
    (starts : chars.take lead.length = lead) :
    (chars ++ tail).drop lead.length = chars.drop lead.length ++ tail := by
  refine List.drop_append_of_le_length ?_
  rw [← starts, List.length_take]
  exact Nat.min_le_right _ _

/-- Spaces before other characters are dropped as if nothing were behind these. -/
theorem dropWhile_append_of_ne_nil {chars : List Char} (some : chars.dropWhile p ≠ [])
    (tail : List Char) : (chars ++ tail).dropWhile p = chars.dropWhile p ++ tail := by
  rw [List.dropWhile_append, if_neg (by simpa using some)]

end

/-! ### Numbers -/

namespace Number.Literal

variable {stop : Char}

theorem takeSign_append (isStop : IsStop stop) (chars behind : List Char) :
    takeSign (chars ++ stop :: behind) =
      ((takeSign chars).1, (takeSign chars).2 ++ stop :: behind) := by
  cases chars with
  | nil =>
    have plus := isStop.ne '+' (by decide)
    have minus := isStop.ne '-' (by decide)
    simp [takeSign, plus, minus]
  | cons c rest =>
    simp only [List.cons_append, takeSign]
    split <;> rfl

theorem startsWithDigit_append (isStop : IsStop stop) (chars behind : List Char) :
    startsWithDigit (chars ++ stop :: behind) = startsWithDigit chars :=
  any_head?_append_stop isStop.isDigit chars behind

theorem takeFraction_append (isStop : IsStop stop) (chars behind : List Char) :
    takeFraction (chars ++ stop :: behind) =
      ((takeFraction chars).1, (takeFraction chars).2 ++ stop :: behind) := by
  cases chars with
  | nil => simp [takeFraction, isStop.ne '.' (by decide)]
  | cons c rest =>
    simp only [List.cons_append, takeFraction, startsWithDigit_append isStop]
    split
    · rw [takeWhile_append_stop isStop.isDigit, dropWhile_append_stop isStop.isDigit]
    · rfl

theorem takeExponent_append (isStop : IsStop stop) (chars behind : List Char) :
    takeExponent (chars ++ stop :: behind) =
      ((takeExponent chars).1, (takeExponent chars).2 ++ stop :: behind) := by
  cases chars with
  | nil =>
    have small := isStop.ne 'e' (by decide)
    have capital := isStop.ne 'E' (by decide)
    simp [takeExponent, small, capital]
  | cons c rest =>
    simp only [List.cons_append, takeExponent, takeSign_append isStop,
      startsWithDigit_append isStop]
    split
    · rw [takeWhile_append_stop isStop.isDigit, dropWhile_append_stop isStop.isDigit]
    · rfl

/-- A number is taken as if nothing were behind it. -/
theorem take_append (isStop : IsStop stop) (chars behind : List Char) :
    take (chars ++ stop :: behind) = ((take chars).1, (take chars).2 ++ stop :: behind) := by
  simp only [take, takeSign_append isStop, takeWhile_append_stop isStop.isDigit,
    dropWhile_append_stop isStop.isDigit, takeFraction_append isStop, takeExponent_append isStop]

end Number.Literal

namespace Css

open Text (isSpace)

/-! ### Scanners -/

namespace Scan

variable {chars : List Char} {stop : Char}

theorem startsName_append (isStop : IsStop stop) (plain : '\\' ∉ chars) (behind : List Char) :
    startsName (chars ++ stop :: behind) = startsName chars := by
  have hyphen := isStop.ne '-' (by decide)
  have escape := isStop.ne '\\' (by decide)
  fun_cases startsName chars with
  | case1 =>
    rw [List.nil_append, startsName]
    · exact isStop.isNameStart
    · exact hyphen
    · exact escape
  | case2 => simp [startsName, isStop.isNameStart, hyphen, escape]
  | case3 c next =>
    have notEscape : (c == '\\') = false :=
      beq_eq_false_iff_ne.mpr fun same => plain (by simp [same])
    simp only [List.cons_append, startsName, notEscape, Bool.false_and]
  | case4 rest => exact absurd List.mem_cons_self plain
  | case5 c rest notHyphen notBackslash => rw [List.cons_append, startsName] <;> assumption

theorem startsUnsigned_append (isStop : IsStop stop) (chars behind : List Char) :
    startsUnsigned (chars ++ stop :: behind) = startsUnsigned chars := by
  cases chars with
  | nil => simp [startsUnsigned, isStop.isDigit, isStop.ne '.' (by decide)]
  | cons c rest =>
    rw [List.cons_append, startsUnsigned, startsUnsigned, any_head?_append_stop isStop.isDigit]

theorem startsNumber_append (isStop : IsStop stop) (chars behind : List Char) :
    startsNumber (chars ++ stop :: behind) = startsNumber chars := by
  cases chars with
  | nil =>
    have plus := isStop.ne '+' (by decide)
    have minus := isStop.ne '-' (by decide)
    show startsNumber (stop :: behind) = false
    rw [startsNumber, if_neg (by simp [plus, minus])]
    exact startsUnsigned_append isStop [] behind
  | cons c rest =>
    simp only [List.cons_append, startsNumber]
    rw [startsUnsigned_append isStop, ← List.cons_append, startsUnsigned_append isStop]

/-- Without backslashes a name is a run of the characters of names. -/
theorem takeName_eq (plain : '\\' ∉ chars) :
    takeName chars = (chars.takeWhile isNameChar, chars.dropWhile isNameChar) := by
  fun_induction takeName chars with
  | case1 => rfl
  | case2 c rest isName name after taken ih =>
    have same := ih fun member => plain (List.mem_cons_of_mem _ member)
    rw [taken] at same
    obtain ⟨rfl, rfl⟩ := Prod.mk.inj same
    simp [isName]
  | case3 c rest _ escape =>
    obtain ⟨rfl, -⟩ : c = '\\' ∧ _ := by simpa using escape
    exact absurd List.mem_cons_self plain
  | case4 c rest notName => simp [notName]

theorem takeName_cons {c : Char} (plain : c ≠ '\\') (rest : List Char) :
    takeName (c :: rest) =
      if isNameChar c then (c :: (takeName rest).1, (takeName rest).2) else ([], c :: rest) := by
  rw [takeName, if_neg (by simp [plain] : ¬ (c == '\\' && startsEscape rest) = true)]

/-- A name is taken as if nothing were behind it. -/
theorem takeName_append (isStop : IsStop stop) (plain : '\\' ∉ chars) (behind : List Char) :
    takeName (chars ++ stop :: behind) =
      ((takeName chars).1, (takeName chars).2 ++ stop :: behind) := by
  induction chars with
  | nil =>
    have escape := isStop.ne '\\' (by decide)
    have nothing : takeName [] = ([], []) := by rw [takeName]
    rw [List.nil_append, nothing, takeName, if_neg (by simp [isStop.1]), if_neg (by simp [escape])]
    rfl
  | cons c rest ih =>
    obtain ⟨notEscape, plainRest⟩ := not_or.mp (mt List.mem_cons.mpr plain)
    rw [List.cons_append, takeName_cons (Ne.symm notEscape), takeName_cons (Ne.symm notEscape),
      ih plainRest]
    split <;> rfl

/-- What is left behind the end of a comment, and what is put there. -/
theorem afterComment?_append {rest : List Char} (found : afterComment? chars = some rest)
    (tail : List Char) : afterComment? (chars ++ tail) = some (rest ++ tail) := by
  fun_induction afterComment? chars with
  | case1 => cases found
  | case2 after =>
    obtain rfl := Option.some.inj found
    rfl
  | case3 c after other ih =>
    rw [List.cons_append, afterComment?, ih found]
    rintro further rfl split
    cases after with
    | nil => cases found
    | cons d more =>
      obtain ⟨rfl, -⟩ := List.cons.inj split
      exact other more rfl rfl

theorem skipComments?_append {rest : List Char} (isStop : IsStop stop)
    (skipped : skipComments? chars = some rest) (behind : List Char) :
    skipComments? (chars ++ stop :: behind) = some (rest ++ stop :: behind) := by
  fun_induction skipComments? chars with
  | case1 => cases skipped
  | case2 comment after found _ ih =>
    have foundHere := afterComment?_append found (stop :: behind)
    rw [List.cons_append, List.cons_append, skipComments?]
    split
    · next nothing =>
      rw [foundHere] at nothing
      cases nothing
    · next further foundFurther =>
      rw [foundHere] at foundFurther
      obtain rfl := Option.some.inj foundFurther
      exact ih skipped
  | case3 chars other =>
    obtain rfl := Option.some.inj skipped
    rw [skipComments?]
    intro further split
    rcases chars with _ | ⟨c, _ | ⟨d, more⟩⟩
    · exact isStop.ne _ (by decide) (List.cons.inj split).1
    · obtain ⟨-, rest⟩ := List.cons.inj split
      exact isStop.ne _ (by decide) (List.cons.inj rest).1
    · obtain ⟨rfl, rest⟩ := List.cons.inj split
      obtain ⟨rfl, -⟩ := List.cons.inj rest
      exact other more rfl

/-- A quotation with more text behind what it leaves. -/
def Quotation.before (q : Quotation) (tail : List Char) : Quotation :=
  { q with rest := q.rest ++ tail }

theorem takeString_cons {c : Char} (quote : Char) (plain : c ≠ '\\') (rest : List Char) :
    takeString quote (c :: rest) =
      if c = quote then ⟨[], .closed, rest⟩
      else if c = '\n' then ⟨[], .broken, c :: rest⟩
      else (takeString quote rest).cons c := by
  rw [takeString.eq_def]
  simp only [if_neg plain]

/-- A string that is not broken takes a character at least, unless nothing is left. -/
theorem takeString_taken (quote : Char) (chars : List Char) :
    (takeString quote chars).ending = .broken ∨ (takeString quote chars).rest = [] ∨
      (takeString quote chars).rest.length < chars.length := by
  fun_cases takeString quote chars with
  | case1 | case4 => exact .inr (.inl rfl)
  | case3 => exact .inl rfl
  | case2 rest => exact .inr (.inr (Nat.lt_succ_self _))
  | case5 more =>
    have bound := (takeString_suffix quote more).length_le
    exact .inr (.inr (by simp only [List.length_cons]; omega))
  | case6 d more _ escaped =>
    have bound := (takeString_suffix quote escaped.2).length_le
    have behind : escaped.2.length ≤ (d :: more).length := length_takeEscape_le (d :: more)
    exact .inr (.inr (Nat.lt_succ_of_le (Nat.le_trans bound behind)))
  | case7 c rest =>
    exact .inr (.inr (Nat.lt_succ_of_le (takeString_suffix quote rest).length_le))

/-- A string that ends is taken as if nothing were behind it. -/
theorem takeString_append {quote : Char} (plain : '\\' ∉ chars)
    (ends : (takeString quote chars).ending ≠ .cutOff) (tail : List Char) :
    takeString quote (chars ++ tail) = (takeString quote chars).before tail := by
  induction chars with
  | nil => exact absurd (by rw [takeString]) ends
  | cons c rest ih =>
    obtain ⟨notEscape, plainRest⟩ := not_or.mp (mt List.mem_cons.mpr plain)
    rw [takeString_cons quote (Ne.symm notEscape)] at ends ⊢
    rw [List.cons_append, takeString_cons quote (Ne.symm notEscape)]
    split at ends
    · next same =>
      simp only [if_pos same]
      rfl
    · next other =>
      simp only [if_neg other]
      split at ends
      · next same =>
        simp only [if_pos same]
        rfl
      · next goes =>
        simp only [if_neg goes, ih plainRest ends]
        rfl

/-- An address that its parenthesis closes is taken as if nothing were behind it. -/
theorem takeAddress_append (plain : '\\' ∉ chars) (closed : (takeAddress chars).ending = .closed)
    (tail : List Char) : takeAddress (chars ++ tail) = (takeAddress chars).before tail := by
  fun_induction takeAddress chars with
  | case1 | case3 | case5 | case6 => cases closed
  | case2 rest =>
    rw [List.cons_append, takeAddress, if_pos rfl]
    rfl
  | case4 c rest notClosing space more dropped =>
    rw [List.cons_append, takeAddress, if_neg notClosing, if_pos space,
      dropWhile_append_of_ne_nil (by simp [dropped]), dropped]
    rfl
  | case7 | case8 => exact absurd List.mem_cons_self plain
  | case9 c rest notClosing notSpace notQuote notEscape ih =>
    have same := ih (fun member => plain (List.mem_cons_of_mem _ member)) closed
    rw [List.cons_append, takeAddress, if_neg notClosing, if_neg notSpace, if_neg notQuote,
      if_neg notEscape, same]
    rfl

end Scan

/-! ### Tokens -/

namespace Lexer

open Scan

/-- A step with more text behind what it leaves. -/
def Step.before (step : Step) (tail : List Char) : Step := { step with rest := step.rest ++ tail }

variable {chars : List Char} {stop : Char}

theorem stringToken_append {quote : Char} (plain : '\\' ∉ chars)
    (whole : (stringToken quote chars).fault = none) (tail : List Char) :
    stringToken quote (chars ++ tail) = (stringToken quote chars).before tail := by
  have ends : (takeString quote chars).ending ≠ .cutOff := by
    intro cut
    simp only [stringToken, cut] at whole
    cases whole
  simp only [stringToken, takeString_append plain ends, Quotation.before]
  split <;> rfl

theorem addressToken_append (plain : '\\' ∉ chars) (whole : (addressToken chars).fault = none)
    (sound : (addressToken chars).token ≠ .badUrl) (tail : List Char) :
    addressToken (chars ++ tail) = (addressToken chars).before tail := by
  have closed : (takeAddress chars).ending = .closed := by
    cases ending : (takeAddress chars).ending with
    | closed => rfl
    | broken =>
      simp only [addressToken, ending] at sound
      exact absurd rfl sound
    | cutOff =>
      simp only [addressToken, ending] at whole
      cases whole
  simp only [addressToken, takeAddress_append plain closed, Quotation.before, closed]
  rfl

/-- Something stands behind the opening parenthesis of an address that is not cut off. -/
theorem ne_nil_of_addressToken (whole : (addressToken chars).fault = none) : chars ≠ [] := by
  rintro rfl
  rw [addressToken, takeAddress] at whole
  cases whole

/-- The token of a number, by what follows the number. -/
theorem numericToken_eq (chars : List Char) :
    numericToken chars =
      let (literal, after) := Number.Literal.take chars
      if startsName after then
        ⟨.dimension ⟨literal.value, literal.integer?⟩ (String.ofList (takeName after).1), none,
          (takeName after).2⟩
      else if after.head? = some '%' then
        ⟨.percentage ⟨literal.value, literal.integer?⟩, none, after.tail⟩
      else ⟨.number ⟨literal.value, literal.integer?⟩, none, after⟩ := by
  rw [numericToken]
  generalize Number.Literal.take chars = taken
  obtain ⟨literal, after⟩ := taken
  simp only
  split
  · rfl
  · split
    · rfl
    · next other =>
      refine (if_neg fun percent => ?_).symm
      obtain ⟨more, rfl⟩ := List.head?_eq_some_iff.mp percent
      exact other more rfl

/-- The token of a name, by what follows the name. -/
theorem namedToken_eq (chars : List Char) :
    namedToken chars =
      let (name, after) := takeName chars
      if after.head? = some '(' then
        if Text.equalsIgnoringCase (String.ofList name) "url" then
          let argument := after.tail.dropWhile isSpace
          if argument.head? = some '"' ∨ argument.head? = some '\'' then
            ⟨.function (String.ofList name), none, argument⟩
          else addressToken argument
        else ⟨.function (String.ofList name), none, after.tail⟩
      else ⟨.ident (String.ofList name), none, after⟩ := by
  rw [namedToken]
  generalize takeName chars = taken
  obtain ⟨name, after⟩ := taken
  simp only
  split
  · rfl
  · next other =>
    refine (if_neg fun opens => ?_).symm
    obtain ⟨more, rfl⟩ := List.head?_eq_some_iff.mp opens
    exact other more rfl

theorem head?_append_stop_eq_iff {c : Char} (other : stop ≠ c) (behind : List Char) :
    (chars ++ stop :: behind).head? = some c ↔ chars.head? = some c := by
  cases chars with
  | nil => simpa using other
  | cons d rest => rfl

theorem head?_append_of_ne_nil (some : chars ≠ []) (tail : List Char) :
    (chars ++ tail).head? = chars.head? := by
  cases chars with
  | nil => exact absurd rfl some
  | cons c rest => rfl

theorem tail_append_of_head? {c : Char} (first : chars.head? = some c) (tail : List Char) :
    (chars ++ tail).tail = chars.tail ++ tail :=
  List.tail_append_of_ne_nil fun nothing => by rw [nothing] at first; cases first

theorem numericToken_append (isStop : IsStop stop) (plain : '\\' ∉ chars) (behind : List Char) :
    numericToken (chars ++ stop :: behind) = (numericToken chars).before (stop :: behind) := by
  have suffix := Number.Literal.take_suffix chars
  rw [numericToken_eq, numericToken_eq, Number.Literal.take_append isStop]
  generalize Number.Literal.take chars = taken at suffix
  obtain ⟨literal, after⟩ := taken
  have plainAfter : '\\' ∉ after := mt (suffix.mem ·) plain
  simp only [startsName_append isStop plainAfter, takeName_append isStop plainAfter,
    head?_append_stop_eq_iff (isStop.ne '%' (by decide))]
  split
  · rfl
  · split
    · next percent =>
      rw [tail_append_of_head? percent]
      rfl
    · rfl

theorem namedToken_append (isStop : IsStop stop) (plain : '\\' ∉ chars)
    (whole : (namedToken chars).fault = none) (sound : (namedToken chars).token ≠ .badUrl)
    (behind : List Char) :
    namedToken (chars ++ stop :: behind) = (namedToken chars).before (stop :: behind) := by
  have suffix := takeName_suffix chars
  rw [namedToken_eq] at whole sound ⊢
  rw [namedToken_eq, takeName_append isStop plain]
  generalize takeName chars = taken at *
  obtain ⟨name, after⟩ := taken
  simp only [head?_append_stop_eq_iff (isStop.ne '(' (by decide))] at whole sound ⊢
  split at whole
  · next opens =>
    have suffixArgument :=
      (List.dropWhile_suffix isSpace).trans ((List.tail_suffix after).trans suffix)
    have plainArgument := mt (suffixArgument.mem ·) plain
    simp only [if_pos opens, tail_append_of_head? opens] at sound ⊢
    split at whole
    · next address =>
      have argument : after.tail.dropWhile isSpace ≠ [] := by
        intro nothing
        simp only [nothing] at whole
        exact ne_nil_of_addressToken whole rfl
      simp only [if_pos address, dropWhile_append_of_ne_nil argument,
        head?_append_of_ne_nil argument] at sound ⊢
      split at whole
      · next quoted =>
        simp only [if_pos quoted]
        rfl
      · next unquoted =>
        simp only [if_neg unquoted] at sound ⊢
        exact addressToken_append plainArgument whole sound (stop :: behind)
    · next other =>
      simp only [if_neg other]
      rfl
  · next other =>
    simp only [if_neg other]
    rfl

theorem hashToken_append (isStop : IsStop stop) (plain : '\\' ∉ chars) (behind : List Char) :
    hashToken (chars ++ stop :: behind) = (hashToken chars).before (stop :: behind) := by
  have noEscape : (chars.head? == some '\\') = false := by
    rw [beq_eq_false_iff_ne]
    exact fun first => plain (List.mem_of_head? first)
  have noEscapeHere : ((chars ++ stop :: behind).head? == some '\\') = false := by
    rw [beq_eq_false_iff_ne, ne_eq, head?_append_stop_eq_iff (isStop.ne _ (by decide))]
    exact fun first => plain (List.mem_of_head? first)
  simp only [hashToken, any_head?_append_stop isStop.1, noEscape, noEscapeHere,
    takeName_append isStop plain, Bool.false_and, Bool.or_false]
  split <;> rfl

theorem tokenAt_space {c : Char} (space : isSpace c = true) (rest : List Char) :
    tokenAt c rest = ⟨.whitespace, none, rest.dropWhile isSpace⟩ := by
  have punctuation : punctuation? c = none := by
    unfold punctuation?
    split <;> first | rfl | exact absurd space (by decide)
  simp only [tokenAt, punctuation, if_pos space]

/-- A token other than spaces is taken as if nothing were behind it, if it is no broken address and
the text does not break off inside it. -/
theorem tokenAt_append_of_visible (isStop : IsStop stop) {c : Char} {rest : List Char}
    (visible : isSpace c = false) (plain : '\\' ∉ c :: rest)
    (whole : (tokenAt c rest).fault = none) (sound : (tokenAt c rest).token ≠ .badUrl)
    (behind : List Char) :
    tokenAt c (rest ++ stop :: behind) = (tokenAt c rest).before (stop :: behind) := by
  have plainRest : '\\' ∉ rest := (not_or.mp (mt List.mem_cons.mpr plain)).2
  have number := startsNumber_append isStop (c :: rest) behind
  have name := startsName_append isStop plain behind
  have hyphen := isStop.ne '-' (by decide)
  have closes : (rest ++ stop :: behind).take 2 = ['-', '>'] ↔ rest.take 2 = ['-', '>'] :=
    take_append_stop_eq_iff rest behind ['-', '>']
      (by simp [hyphen, isStop.ne '>' (by decide)])
  have opens : (rest ++ stop :: behind).take 3 = ['!', '-', '-'] ↔
      rest.take 3 = ['!', '-', '-'] :=
    take_append_stop_eq_iff rest behind ['!', '-', '-']
      (by simp [hyphen, isStop.ne '!' (by decide)])
  rw [List.cons_append] at number name
  unfold tokenAt at whole sound ⊢
  simp only [number, name, closes, opens, startsName_append isStop plainRest,
    takeName_append isStop plainRest, visible, Bool.false_eq_true, if_false] at whole sound ⊢
  revert whole sound
  split
  · exact fun _ _ => rfl
  · split_ifs with quote hash digits close opening keyword word
    · exact fun whole _ => stringToken_append plainRest whole (stop :: behind)
    · exact fun _ _ => hashToken_append isStop plainRest behind
    · exact fun _ _ => numericToken_append isStop plain behind
    · intro _ _
      exact congrArg (Step.mk .commentClose none) (drop_append_of_take ['-', '>'] _ close.2)
    · intro _ _
      exact congrArg (Step.mk .commentOpen none)
        (drop_append_of_take ['!', '-', '-'] _ opening.2)
    · exact fun _ _ => rfl
    · exact fun whole sound => namedToken_append isStop plain whole sound behind
    · exact fun _ _ => rfl

/-- **A token is taken as if nothing were behind it**, if it is no broken address and the text does
not break off inside it; but spaces at the end of the text go on with those behind it. -/
theorem tokenAt_append (isStop : IsStop stop) {c : Char} {rest : List Char}
    (plain : '\\' ∉ c :: rest) (whole : (tokenAt c rest).fault = none)
    (sound : (tokenAt c rest).token ≠ .badUrl) (behind : List Char) :
    tokenAt c (rest ++ stop :: behind) = (tokenAt c rest).before (stop :: behind) ∨
      (tokenAt c rest).rest = [] ∧ tokenAt c (rest ++ stop :: behind) =
        { tokenAt c rest with rest := (stop :: behind).dropWhile isSpace } := by
  cases space : isSpace c with
  | false => exact .inl (tokenAt_append_of_visible isStop space plain whole sound behind)
  | true =>
    rw [tokenAt_space space, tokenAt_space space]
    by_cases nothing : rest.dropWhile isSpace = []
    · refine .inr ⟨nothing, ?_⟩
      rw [List.dropWhile_append, nothing]
      rfl
    · refine .inl ?_
      rw [dropWhile_append_of_ne_nil nothing]
      rfl

/-- What is not in a text is neither where its first token starts nor behind it. -/
theorem notMem_of_skipComments? {c d : Char} {rest : List Char} (without : d ∉ chars)
    (skipped : skipComments? chars = some (c :: rest)) :
    d ∉ c :: rest ∧ d ∉ (tokenAt c rest).rest := by
  have notHere : d ∉ c :: rest := fun member =>
    without ((skipComments?_suffix skipped).mem member)
  exact ⟨notHere, fun member =>
    notHere (List.mem_cons_of_mem c ((tokenAt_suffix c rest).mem member))⟩

/-- The token at a character is not the end. -/
theorem tokenAt_ne_endOfFile (c : Char) (rest : List Char) :
    (tokenAt c rest).token ≠ .endOfFile := by
  have punctuation (token : Token) (isOne : punctuation? c = some token) : token ≠ .endOfFile := by
    rintro rfl
    unfold punctuation? at isOne
    split at isOne <;> cases isOne
  have string (quote : Char) (chars : List Char) :
      (stringToken quote chars).token ≠ .endOfFile := by
    simp only [stringToken]
    split <;> simp
  have address (chars : List Char) : (addressToken chars).token ≠ .endOfFile := by
    simp only [addressToken]
    split <;> simp
  have hash (chars : List Char) : (hashToken chars).token ≠ .endOfFile := by
    simp only [hashToken]
    split <;> simp
  have numeric (chars : List Char) : (numericToken chars).token ≠ .endOfFile := by
    rw [numericToken_eq]
    simp only
    split_ifs <;> simp
  have named (chars : List Char) : (namedToken chars).token ≠ .endOfFile := by
    rw [namedToken_eq]
    simp only
    split
    split_ifs
    · simp
    · exact address _
    · simp
    · simp
  unfold tokenAt
  split
  · next token isOne => exact punctuation token isOne
  · split_ifs
    · simp
    · exact string _ _
    · exact hash _
    · exact numeric _
    · simp
    · simp
    · simp
    · exact named _
    · simp

end Lexer

/-! ### All tokens of a text -/

theorem tokenizeChars_of_none {chars : List Char} (skipped : Scan.skipComments? chars = none) :
    tokenizeChars chars = ⟨[.endOfFile], [.unterminatedComment]⟩ := by
  rw [tokenizeChars.eq_def]
  split
  · rfl
  all_goals
    next found =>
      rw [skipped] at found
      cases found

theorem tokenizeChars_of_nil {chars : List Char} (skipped : Scan.skipComments? chars = some []) :
    tokenizeChars chars = ⟨[.endOfFile], []⟩ := by
  rw [tokenizeChars.eq_def]
  split
  · next nothing =>
    rw [skipped] at nothing
    cases nothing
  · rfl
  · next found =>
    rw [skipped] at found
    cases found

theorem tokenizeChars_of_cons {chars rest : List Char} {c : Char}
    (skipped : Scan.skipComments? chars = some (c :: rest)) :
    tokenizeChars chars =
      ⟨(Lexer.tokenAt c rest).token :: (tokenizeChars (Lexer.tokenAt c rest).rest).tokens,
        (Lexer.tokenAt c rest).fault.toList ++
          (tokenizeChars (Lexer.tokenAt c rest).rest).faults⟩ := by
  rw [tokenizeChars.eq_def]
  split
  · next nothing =>
    rw [skipped] at nothing
    cases nothing
  · next nothing =>
    rw [skipped] at nothing
    cases nothing
  · next found =>
    rw [skipped] at found
    cases found
    rfl

/-- Where no comment starts there is none to skip. -/
theorem skipComments?_of_noComment {chars : List Char} (noComment : ¬ ['/', '*'] <+: chars) :
    Scan.skipComments? chars = some chars := by
  rw [Scan.skipComments?]
  rintro rest rfl
  exact noComment ⟨rest, rfl⟩

theorem skipComments?_nil : Scan.skipComments? [] = some [] :=
  skipComments?_of_noComment (by simp)

theorem skipComments?_of_ne {c : Char} (other : c ≠ '/') (rest : List Char) :
    Scan.skipComments? (c :: rest) = some (c :: rest) :=
  skipComments?_of_noComment (by simp [other.symm])

/-- **The last token of a text is the end, and no other is.** -/
theorem tokenizeChars_endsOnce (chars : List Char) : EndsOnce (tokenizeChars chars).tokens := by
  fun_induction tokenizeChars chars with
  | case1 | case2 => exact ⟨[], rfl, List.not_mem_nil⟩
  | case3 chars c rest _ _ _ step others ih =>
    obtain ⟨body, split, once⟩ := ih
    refine ⟨step.token :: body, congrArg _ split, ?_⟩
    rw [List.mem_cons, not_or]
    exact ⟨(Lexer.tokenAt_ne_endOfFile c rest).symm, once⟩

/-- Spaces are one token. -/
theorem tokenizeChars_of_space {chars : List Char} (space : chars.head?.any isSpace = true) :
    tokenizeChars chars =
      ⟨.whitespace :: (tokenizeChars (chars.dropWhile isSpace)).tokens,
        (tokenizeChars (chars.dropWhile isSpace)).faults⟩ := by
  cases chars with
  | nil => cases space
  | cons c rest =>
    have spaceHere : isSpace c = true := space
    have other : c ≠ '/' := fun same => absurd spaceHere (by rw [same]; decide)
    rw [tokenizeChars_of_cons (skipComments?_of_ne other rest), Lexer.tokenAt_space spaceHere,
      List.dropWhile_cons_of_pos spaceHere]
    rfl

/-- **Behind the tokens of a text come those of what is put behind it**, without the spaces there if
the text ends in spaces. -/
theorem tokenizeChars_append {stop : Char} (isStop : IsStop stop) {chars : List Char}
    (plain : '\\' ∉ chars) (whole : (tokenizeChars chars).faults = [])
    (sound : .badUrl ∉ (tokenizeChars chars).tokens) {body : List Token}
    (tokens : (tokenizeChars chars).tokens = body ++ [.endOfFile]) (behind : List Char) :
    ∃ after, (after = stop :: behind ∨ after = (stop :: behind).dropWhile isSpace) ∧
      tokenizeChars (chars ++ stop :: behind) =
        ⟨body ++ (tokenizeChars after).tokens, (tokenizeChars after).faults⟩ := by
  fun_induction tokenizeChars chars generalizing body with
  | case1 => cases whole
  | case2 chars skipped =>
    obtain rfl : body = [] := by simpa using tokens
    have start := skipComments?_of_ne (isStop.ne '/' (by decide)) behind
    refine ⟨stop :: behind, .inl rfl, ?_⟩
    rw [tokenizeChars_of_cons (Scan.skipComments?_append isStop skipped behind),
      tokenizeChars_of_cons start]
    rfl
  | case3 chars c rest skipped _ _ step others ih =>
    have skippedHere := Scan.skipComments?_append isStop skipped behind
    obtain ⟨wholeStep, wholeOthers⟩ := List.append_eq_nil_iff.mp whole
    obtain ⟨soundStep, soundOthers⟩ := not_or.mp (mt List.mem_cons.mpr sound)
    obtain ⟨plainHere, plainStep⟩ := Lexer.notMem_of_skipComments? plain skipped
    cases body with
    | nil =>
      obtain ⟨isEnd, -⟩ := List.cons.inj tokens
      exact absurd isEnd (Lexer.tokenAt_ne_endOfFile c rest)
    | cons first body =>
      obtain ⟨rfl, tokensOthers⟩ := List.cons.inj tokens
      rw [List.cons_append] at skippedHere
      rw [tokenizeChars_of_cons skippedHere]
      rcases Lexer.tokenAt_append isStop plainHere (Option.toList_eq_nil_iff.mp wholeStep)
        (Ne.symm soundStep) behind with same | ⟨nothing, same⟩
      · obtain ⟨after, left, further⟩ := ih plainStep wholeOthers soundOthers tokensOthers
        refine ⟨after, left, ?_⟩
        rw [same]
        simp only [Lexer.Step.before]
        rw [further, wholeStep]
        rfl
      · have ends : others = ⟨[.endOfFile], []⟩ := by
          show tokenizeChars step.rest = _
          rw [nothing]
          exact tokenizeChars_of_nil skipComments?_nil
        obtain rfl : body = [] := by simpa [ends] using tokensOthers
        refine ⟨_, .inr rfl, ?_⟩
        rw [same]
        show Lexed.mk _ (step.fault.toList ++ _) = _
        rw [wholeStep]
        rfl

theorem tokensOf_eq_ok_iff {text : String} {tokens : List Token} :
    tokensOf text = .ok tokens ↔ (tokenize text).faults = [] ∧ (tokenize text).tokens = tokens := by
  rw [tokensOf]
  cases faults : (tokenize text).faults with
  | nil => simp
  | cons fault others => simp

/-- A name of one letter before an opening brace. -/
theorem tokenAt_p (more : List Char) :
    Lexer.tokenAt 'p' ('\x7b' :: more) = ⟨.ident "p", none, '\x7b' :: more⟩ := by
  have named : Lexer.tokenAt 'p' ('\x7b' :: more) = Lexer.namedToken ('p' :: '\x7b' :: more) := rfl
  have taken : Scan.takeName ('p' :: '\x7b' :: more) = (['p'], '\x7b' :: more) := by
    rw [Scan.takeName, if_pos (by decide), Scan.takeName, if_neg (by decide),
      if_neg (by simp)]
  rw [named, Lexer.namedToken_eq, taken]
  rfl

/-- **The tokens of a text in the braces of a rule** are its own between those of the rule. -/
theorem tokensOf_block {text : String} {body : List Token} (plain : '\\' ∉ text.toList)
    (tokens : tokensOf text = .ok (body ++ [.endOfFile])) (sound : .badUrl ∉ body) :
    tokensOf ("p\x7b" ++ text ++ "\x7d") =
      .ok (.ident "p" :: .leftBrace :: (body ++ [.rightBrace, .endOfFile])) := by
  obtain ⟨whole, same⟩ := tokensOf_eq_ok_iff.mp tokens
  have soundTokens : .badUrl ∉ (tokenize text).tokens := by
    rw [same]
    simpa using sound
  have alone : tokenizeChars ['\x7d'] = ⟨[.rightBrace, .endOfFile], []⟩ := by
    rw [tokenizeChars_of_cons (skipComments?_of_ne (by decide) [])]
    show Lexed.mk (.rightBrace :: (tokenizeChars []).tokens) (tokenizeChars []).faults = _
    rw [tokenizeChars_of_nil skipComments?_nil]
  have block : tokenizeChars (text.toList ++ ['\x7d']) =
      ⟨body ++ [.rightBrace, .endOfFile], []⟩ := by
    obtain ⟨after, rfl | rfl, block⟩ :=
      tokenizeChars_append isStop_brace plain whole soundTokens same []
    · rw [block, alone]
    · rw [block, List.dropWhile_cons_of_neg (by decide), alone]
  have opening := tokenizeChars_of_cons
    (skipComments?_of_ne (by decide : '\x7b' ≠ '/') (text.toList ++ ['\x7d']))
  have start := tokenizeChars_of_cons
    (skipComments?_of_ne (by decide : 'p' ≠ '/') ('\x7b' :: (text.toList ++ ['\x7d'])))
  have brace : Lexer.tokenAt '\x7b' (text.toList ++ ['\x7d']) =
      ⟨.leftBrace, none, text.toList ++ ['\x7d']⟩ := rfl
  rw [brace, block] at opening
  rw [tokenAt_p, opening] at start
  have split : ("p\x7b" ++ text ++ "\x7d").toList =
      'p' :: '\x7b' :: (text.toList ++ ['\x7d']) := by
    simp
  rw [tokensOf_eq_ok_iff, tokenize, split, start]
  exact ⟨rfl, rfl⟩

end Css

end PagedHtml
