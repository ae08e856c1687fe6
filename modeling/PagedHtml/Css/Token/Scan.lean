/-
**Taking names, strings, addresses and comments from the front of style sheet text.**

Each scanner returns what it took and what follows, and what follows is the end of what the scanner
was given (`takeEscape_suffix` and its companions), so that it is never longer. The lexer ends
because of that.
-/

import PagedHtml.Text.Ascii
import PagedHtml.Text.Hex

namespace PagedHtml.Css.Scan

open Text (isSpace isAscii isHexDigit)

/-! ### Character classes -/

/-- A letter, a low line, or any character beyond ASCII. -/
def isNameStart (c : Char) : Bool := c.isAlpha || c == '_' || !isAscii c

/-- A character of a name: one that may start it, a digit, or a hyphen. -/
def isNameChar (c : Char) : Bool := isNameStart c || c.isDigit || c == '-'

/-- Whether a backslash before these characters starts an escape: anything but a line break may
follow it, the end of the text included. -/
def startsEscape (afterBackslash : List Char) : Bool := afterBackslash.head? != some '\n'

def startsName : List Char → Bool
  | [] => false
  | '-' :: rest =>
    match rest with
    | [] => false
    | c :: next => isNameStart c || c == '-' || (c == '\\' && startsEscape next)
  | '\\' :: rest => startsEscape rest
  | c :: _ => isNameStart c

/-- Whether an unsigned number starts here: a digit, or a point that a digit follows. -/
def startsUnsigned : List Char → Bool
  | [] => false
  | c :: rest => c.isDigit || (c == '.' && rest.head?.any Char.isDigit)

def startsNumber : List Char → Bool
  | [] => false
  | c :: rest => if c == '+' || c == '-' then startsUnsigned rest else startsUnsigned (c :: rest)

/-! ### Escapes and names -/

/-- What an escape denotes that names no character. -/
def replacement : Char := '\uFFFD'

/-- The character with a given code point, where zero and everything that is no character become the
replacement character. -/
def charOfCodePoint (codePoint : Nat) : Char :=
  if codePoint ≠ 0 ∧ codePoint.isValidChar then Char.ofNat codePoint else replacement

/-- Takes an escape, of which the backslash is already taken: up to six hexadecimal digits and one
space after them, or any other character for itself. -/
def takeEscape : List Char → Char × List Char
  | [] => (replacement, [])
  | c :: rest =>
    if isHexDigit c then
      let more := (rest.take 5).takeWhile isHexDigit
      let codePoint := (Text.hexNumber? (c :: more)).getD 0
      let after := rest.drop more.length
      let after := if after.head?.any isSpace then after.drop 1 else after
      (charOfCodePoint codePoint, after)
    else (c, rest)

theorem takeEscape_suffix (chars : List Char) : (takeEscape chars).2 <:+ chars := by
  cases chars with
  | nil => exact List.suffix_rfl
  | cons c rest =>
    simp only [takeEscape]
    split
    · have digits := List.drop_suffix ((rest.take 5).takeWhile isHexDigit).length rest
      refine List.IsSuffix.trans ?_ (List.suffix_cons c rest)
      split
      · exact (List.drop_suffix 1 _).trans digits
      · exact digits
    · exact List.suffix_cons c rest

theorem length_takeEscape_le (chars : List Char) :
    (takeEscape chars).2.length ≤ chars.length :=
  (takeEscape_suffix chars).length_le

/-- Takes the longest name at the front. -/
def takeName : List Char → List Char × List Char
  | [] => ([], [])
  | c :: rest =>
    if isNameChar c then
      let (name, after) := takeName rest
      (c :: name, after)
    else if c == '\\' && startsEscape rest then
      let escaped := takeEscape rest
      let (name, after) := takeName escaped.2
      (escaped.1 :: name, after)
    else ([], c :: rest)
termination_by chars => chars.length
decreasing_by
  · simp
  · have shorter := length_takeEscape_le rest
    simp only [List.length_cons]
    omega

theorem takeName_suffix (chars : List Char) : (takeName chars).2 <:+ chars := by
  fun_induction takeName chars with
  | case1 => exact List.suffix_rfl
  | case2 c rest _ name after taken ih =>
    rw [taken] at ih
    exact ih.trans (List.suffix_cons c rest)
  | case3 c rest _ _ escaped name after taken ih =>
    rw [taken] at ih
    exact (ih.trans (takeEscape_suffix rest)).trans (List.suffix_cons c rest)
  | case4 => exact List.suffix_rfl

/-- A name that starts here takes the first character at least. -/
theorem takeName_suffix_of_startsName {c : Char} {rest : List Char}
    (starts : startsName (c :: rest) = true) : (takeName (c :: rest)).2 <:+ rest := by
  rw [takeName]
  split
  · exact takeName_suffix rest
  · next notName =>
    have escape : (c == '\\' && startsEscape rest) = true := by
      unfold startsName at starts
      split at starts
      · contradiction
      · next equal =>
        obtain ⟨rfl, _⟩ := List.cons.inj equal
        exact absurd (by decide) notName
      · next equal =>
        obtain ⟨rfl, rfl⟩ := List.cons.inj equal
        simpa using starts
      · next equal =>
        obtain ⟨rfl, _⟩ := List.cons.inj equal
        exact absurd (by simp [isNameChar, starts]) notName
    rw [if_pos escape]
    exact (takeName_suffix _).trans (takeEscape_suffix rest)

/-! ### Comments -/

/-- What follows the end of a comment, of which the opening is already taken. -/
def afterComment? : List Char → Option (List Char)
  | [] => none
  | '*' :: '/' :: rest => some rest
  | _ :: rest => afterComment? rest

theorem afterComment?_suffix {chars rest : List Char} (found : afterComment? chars = some rest) :
    rest <:+ chars := by
  fun_induction afterComment? chars with
  | case1 => cases found
  | case2 after =>
    obtain rfl := Option.some.inj found
    exact ⟨['*', '/'], rfl⟩
  | case3 c after _ ih => exact (ih found).trans (List.suffix_cons c after)

theorem length_afterComment?_le {chars rest : List Char} (found : afterComment? chars = some rest) :
    rest.length ≤ chars.length :=
  (afterComment?_suffix found).length_le

/-- What follows the comments at the front, unless one of them does not end. -/
def skipComments? : List Char → Option (List Char)
  | '/' :: '*' :: rest =>
    match found : afterComment? rest with
    | none => none
    | some after =>
      have _shorter := length_afterComment?_le found
      skipComments? after
  | chars => some chars
termination_by chars => chars.length
decreasing_by
  simp only [List.length_cons]
  omega

theorem skipComments?_suffix {chars rest : List Char} (skipped : skipComments? chars = some rest) :
    rest <:+ chars := by
  fun_induction skipComments? chars with
  | case1 => cases skipped
  | case2 comment after found _ ih =>
    exact ((ih skipped).trans (afterComment?_suffix found)).trans ⟨['/', '*'], rfl⟩
  | case3 =>
    obtain rfl := Option.some.inj skipped
    exact List.suffix_rfl

theorem length_skipComments?_le {chars rest : List Char}
    (skipped : skipComments? chars = some rest) :
    rest.length ≤ chars.length :=
  (skipComments?_suffix skipped).length_le

/-! ### Strings and addresses -/

/-- How the text of a string or an address ends. -/
inductive Ending where
  | closed
  /-- At a character that does not belong in it. -/
  | broken
  | cutOff
  deriving DecidableEq, Repr

/-- Text taken from the front: its characters, how it ends, and what follows. -/
structure Quotation where
  chars : List Char
  ending : Ending
  rest : List Char
  deriving DecidableEq, Repr

/-- The quotation with one more character in front. -/
def Quotation.cons (c : Char) (q : Quotation) : Quotation := { q with chars := c :: q.chars }

/-- Takes the text of a string, of which the opening quote is already taken. A line break ends it
and is left; a backslash before a line break stands for nothing. -/
def takeString (quote : Char) : List Char → Quotation
  | [] => ⟨[], .cutOff, []⟩
  | c :: rest =>
    if c = quote then ⟨[], .closed, rest⟩
    else if c = '\n' then ⟨[], .broken, c :: rest⟩
    else if c = '\\' then
      match rest with
      | [] => ⟨[], .cutOff, []⟩
      | d :: more =>
        if d = '\n' then takeString quote more
        else
          let escaped := takeEscape (d :: more)
          (takeString quote escaped.2).cons escaped.1
    else (takeString quote rest).cons c
termination_by chars => chars.length
decreasing_by
  · simp only [List.length_cons]; omega
  · have shorter := length_takeEscape_le (d :: more)
    simp only [List.length_cons] at shorter ⊢
    omega
  · simp

theorem takeString_suffix (quote : Char) (chars : List Char) :
    (takeString quote chars).rest <:+ chars := by
  fun_induction takeString quote chars with
  | case1 => exact List.suffix_rfl
  | case2 rest => exact List.suffix_cons _ rest
  | case3 => exact List.suffix_rfl
  | case4 => exact List.nil_suffix
  | case5 more _ _ ih => exact ih.trans ⟨['\\', '\n'], rfl⟩
  | case6 d more _ escaped _ _ ih =>
    exact (ih.trans (takeEscape_suffix (d :: more))).trans (List.suffix_cons '\\' (d :: more))
  | case7 c rest _ _ _ ih => exact ih.trans (List.suffix_cons c rest)

/-- What follows a broken address: everything up to its closing parenthesis is skipped. -/
def skipAddress : List Char → List Char
  | [] => []
  | c :: rest =>
    if c = ')' then rest
    else if c == '\\' && startsEscape rest then skipAddress (takeEscape rest).2
    else skipAddress rest
termination_by chars => chars.length
decreasing_by
  · have shorter := length_takeEscape_le rest
    simp only [List.length_cons]
    omega
  · simp

theorem skipAddress_suffix (chars : List Char) : skipAddress chars <:+ chars := by
  fun_induction skipAddress chars with
  | case1 => exact List.suffix_rfl
  | case2 rest => exact List.suffix_cons _ rest
  | case3 c rest _ _ ih =>
    exact (ih.trans (takeEscape_suffix rest)).trans (List.suffix_cons c rest)
  | case4 c rest _ _ ih => exact ih.trans (List.suffix_cons c rest)

/-- Takes the text of an unquoted address up to its closing parenthesis. Spaces may stand only
before that parenthesis; quotes, an opening parenthesis and a backslash that starts no escape break
it. -/
def takeAddress : List Char → Quotation
  | [] => ⟨[], .cutOff, []⟩
  | c :: rest =>
    if c = ')' then ⟨[], .closed, rest⟩
    else if isSpace c then
      match rest.dropWhile isSpace with
      | [] => ⟨[], .cutOff, []⟩
      | d :: more =>
        if d = ')' then ⟨[], .closed, more⟩ else ⟨[], .broken, skipAddress (d :: more)⟩
    else if c = '"' ∨ c = '\'' ∨ c = '(' then ⟨[], .broken, skipAddress rest⟩
    else if c = '\\' then
      if startsEscape rest then
        let escaped := takeEscape rest
        (takeAddress escaped.2).cons escaped.1
      else ⟨[], .broken, skipAddress rest⟩
    else (takeAddress rest).cons c
termination_by chars => chars.length
decreasing_by
  · have shorter := length_takeEscape_le rest
    simp only [List.length_cons]
    omega
  · simp

theorem takeAddress_suffix (chars : List Char) : (takeAddress chars).rest <:+ chars := by
  fun_induction takeAddress chars with
  | case1 => exact List.suffix_rfl
  | case2 rest => exact List.suffix_cons _ rest
  | case3 => exact List.nil_suffix
  | case4 c rest _ _ more dropped =>
    have spaces := List.dropWhile_suffix (l := rest) isSpace
    rw [dropped] at spaces
    exact ((List.suffix_cons _ more).trans spaces).trans (List.suffix_cons c rest)
  | case5 c rest _ _ d more dropped =>
    have spaces := List.dropWhile_suffix (l := rest) isSpace
    rw [dropped] at spaces
    exact ((skipAddress_suffix (d :: more)).trans spaces).trans (List.suffix_cons c rest)
  | case6 c rest => exact (skipAddress_suffix rest).trans (List.suffix_cons c rest)
  | case7 rest _ escaped _ _ _ ih =>
    exact (ih.trans (takeEscape_suffix rest)).trans (List.suffix_cons '\\' rest)
  | case8 rest => exact (skipAddress_suffix rest).trans (List.suffix_cons '\\' rest)
  | case9 c rest _ _ _ _ ih => exact ih.trans (List.suffix_cons c rest)

end PagedHtml.Css.Scan
