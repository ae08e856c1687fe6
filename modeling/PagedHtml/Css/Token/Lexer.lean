/-
**Reading style sheet text as tokens.**

`tokenize` skips the comments at the front of the text, takes one token, and goes on with what
follows, which is the end of what stands behind the first character of the token (`tokenAt_suffix`).
The list of tokens ends with the mark of the end.

The text may break off inside a comment, a string or an address. The token read so far is kept and
the break is recorded as a `LexFault`; a strict reader refuses the text for it.
-/

import PagedHtml.Css.Token
import PagedHtml.Css.Token.Scan
import PagedHtml.Number.Literal

namespace PagedHtml.Css

open Text (isSpace equalsIgnoringCase)
open Scan

/-- A construct that the end of the text cuts off. -/
inductive LexFault where
  | unterminatedComment
  | unterminatedString
  | unterminatedUrl
  deriving DecidableEq, Repr

def LexFault.message : LexFault → String
  | unterminatedComment => "unterminated comment"
  | unterminatedString => "unterminated string"
  | unterminatedUrl => "unterminated url"

namespace Lexer

/-- One token taken from the front of the text. -/
structure Step where
  token : Token
  fault : Option LexFault
  rest : List Char
  deriving DecidableEq, Repr

/-! ### The kinds of tokens -/

/-- A string token, of which the opening quote is already taken. -/
def stringToken (quote : Char) (chars : List Char) : Step :=
  let quotation := takeString quote chars
  match quotation.ending with
  | .closed => ⟨.string (String.ofList quotation.chars), none, quotation.rest⟩
  | .broken => ⟨.badString, none, quotation.rest⟩
  | .cutOff =>
    ⟨.string (String.ofList quotation.chars), some .unterminatedString, quotation.rest⟩

/-- An address token, of which the opening parenthesis and the spaces after it are already taken. -/
def addressToken (chars : List Char) : Step :=
  let quotation := takeAddress chars
  match quotation.ending with
  | .closed => ⟨.url (String.ofList quotation.chars), none, quotation.rest⟩
  | .broken => ⟨.badUrl, none, quotation.rest⟩
  | .cutOff => ⟨.url (String.ofList quotation.chars), some .unterminatedUrl, quotation.rest⟩

/-- A number, which a unit makes a dimension and a percent sign a percentage. -/
def numericToken (chars : List Char) : Step :=
  let taken := Number.Literal.take chars
  let numeral : Numeral := ⟨taken.1.value, taken.1.integer?⟩
  if startsName taken.2 then
    let unit := takeName taken.2
    ⟨.dimension numeral (String.ofList unit.1), none, unit.2⟩
  else
    match taken.2 with
    | '%' :: rest => ⟨.percentage numeral, none, rest⟩
    | rest => ⟨.number numeral, none, rest⟩

/-- A name, which an opening parenthesis makes a function. The function `url` takes an unquoted
address as its own token. -/
def namedToken (chars : List Char) : Step :=
  let taken := takeName chars
  let name := String.ofList taken.1
  match taken.2 with
  | '(' :: rest =>
    if equalsIgnoringCase name "url" then
      let argument := rest.dropWhile isSpace
      if argument.head? = some '"' ∨ argument.head? = some '\'' then
        ⟨.function name, none, argument⟩
      else addressToken argument
    else ⟨.function name, none, rest⟩
  | rest => ⟨.ident name, none, rest⟩

/-- The tokens of a single character that are never part of a longer one. -/
def punctuation? : Char → Option Token
  | '(' => some .leftParen
  | ')' => some .rightParen
  | ',' => some .comma
  | ':' => some .colon
  | ';' => some .semicolon
  | '[' => some .leftBracket
  | ']' => some .rightBracket
  | '\x7b' => some .leftBrace
  | '\x7d' => some .rightBrace
  | _ => none

/-- A hash, of which the number sign is already taken: a name must follow it, though the name may
start with a digit or a hyphen. -/
def hashToken (rest : List Char) : Step :=
  let named := rest.head?.any isNameChar || (rest.head? == some '\\' && startsEscape (rest.drop 1))
  if named then
    let name := takeName rest
    ⟨.hash (String.ofList name.1), none, name.2⟩
  else ⟨.delim '#', none, rest⟩

/-- The token that begins with the character `c`. -/
def tokenAt (c : Char) (rest : List Char) : Step :=
  match punctuation? c with
  | some token => ⟨token, none, rest⟩
  | none =>
    if isSpace c then ⟨.whitespace, none, rest.dropWhile isSpace⟩
    else if c = '"' ∨ c = '\'' then stringToken c rest
    else if c = '#' then hashToken rest
    else if startsNumber (c :: rest) then numericToken (c :: rest)
    else if c = '-' ∧ rest.take 2 = ['-', '>'] then ⟨.commentClose, none, rest.drop 2⟩
    else if c = '<' ∧ rest.take 3 = ['!', '-', '-'] then ⟨.commentOpen, none, rest.drop 3⟩
    else if c = '@' ∧ startsName rest then
      let name := takeName rest
      ⟨.atKeyword (String.ofList name.1), none, name.2⟩
    else if startsName (c :: rest) then namedToken (c :: rest)
    else ⟨.delim c, none, rest⟩

/-! ### Every token leaves the end of the text -/

theorem stringToken_suffix (quote : Char) (chars : List Char) :
    (stringToken quote chars).rest <:+ chars := by
  have taken := takeString_suffix quote chars
  simp only [stringToken]
  split <;> exact taken

theorem addressToken_suffix (chars : List Char) : (addressToken chars).rest <:+ chars := by
  have taken := takeAddress_suffix chars
  simp only [addressToken]
  split <;> exact taken

theorem namedToken_suffix {c : Char} {rest : List Char} (starts : startsName (c :: rest) = true) :
    (namedToken (c :: rest)).rest <:+ rest := by
  have taken := takeName_suffix_of_startsName starts
  simp only [namedToken]
  split
  · next more equal =>
    rw [equal] at taken
    have opened := (List.suffix_cons '(' more).trans taken
    have spaces := (List.dropWhile_suffix isSpace).trans opened
    split
    · split
      · exact spaces
      · exact (addressToken_suffix _).trans spaces
    · exact opened
  · exact taken

/-- A number that starts here takes the first character at least. -/
theorem take_suffix_of_startsNumber {c : Char} {rest : List Char}
    (starts : startsNumber (c :: rest) = true) : (Number.Literal.take (c :: rest)).2 <:+ rest := by
  have shorter : (Number.Literal.take (c :: rest)).2.length < (c :: rest).length := by
    refine Number.Literal.length_take_lt ?_
    by_cases signed : (c == '+' || c == '-') = true
    · rcases (by simpa using signed : c = '+' ∨ c = '-') with plus | minus
      · exact .inl plus
      · exact .inr (.inl minus)
    · rw [startsNumber, if_neg signed] at starts
      rcases (by simpa [startsUnsigned] using starts :
        c.isDigit = true ∨ (c = '.' ∧ rest.head?.any Char.isDigit = true)) with digit | fraction
      · exact .inr (.inr (.inl digit))
      · exact .inr (.inr (.inr fraction))
  rcases List.suffix_cons_iff.mp (Number.Literal.take_suffix (c :: rest)) with whole | proper
  · rw [whole] at shorter
    exact absurd shorter (Nat.lt_irrefl _)
  · exact proper

theorem numericToken_suffix {c : Char} {rest : List Char}
    (starts : startsNumber (c :: rest) = true) : (numericToken (c :: rest)).rest <:+ rest := by
  have taken := take_suffix_of_startsNumber starts
  simp only [numericToken]
  split
  · exact (takeName_suffix _).trans taken
  · split
    · next more equal =>
      rw [equal] at taken
      exact (List.suffix_cons '%' more).trans taken
    · exact taken

theorem hashToken_suffix (rest : List Char) : (hashToken rest).rest <:+ rest := by
  simp only [hashToken]
  split
  · exact takeName_suffix rest
  · exact List.suffix_rfl

/-- What follows a token is the end of what follows its first character. -/
theorem tokenAt_suffix (c : Char) (rest : List Char) : (tokenAt c rest).rest <:+ rest := by
  unfold tokenAt
  split
  · exact List.suffix_rfl
  · split
    · exact List.dropWhile_suffix isSpace
    · split
      · exact stringToken_suffix c rest
      · split
        · exact hashToken_suffix rest
        · split
          · exact numericToken_suffix (by assumption)
          · split
            · exact List.drop_suffix 2 rest
            · split
              · exact List.drop_suffix 3 rest
              · split
                · exact takeName_suffix rest
                · split
                  · exact namedToken_suffix (by assumption)
                  · exact List.suffix_rfl

/-- What follows a token is no longer than what follows its first character. -/
theorem length_tokenAt_le (c : Char) (rest : List Char) :
    (tokenAt c rest).rest.length ≤ rest.length :=
  (tokenAt_suffix c rest).length_le

end Lexer

/-! ### All tokens of a text -/

/-- The tokens of a text and the constructs that its end cuts off, both in order. -/
structure Lexed where
  tokens : List Token
  faults : List LexFault
  deriving Repr

open Lexer in
/-- The tokens of some characters, ended by the mark of the end. -/
def tokenizeChars (chars : List Char) : Lexed :=
  match skipped : skipComments? chars with
  | none => ⟨[.endOfFile], [.unterminatedComment]⟩
  | some [] => ⟨[.endOfFile], []⟩
  | some (c :: rest) =>
    have _taken := length_tokenAt_le c rest
    have _skipped := length_skipComments?_le skipped
    let step := tokenAt c rest
    let others := tokenizeChars step.rest
    ⟨step.token :: others.tokens, step.fault.toList ++ others.faults⟩
termination_by chars.length
decreasing_by
  simp only [List.length_cons] at _skipped
  omega

def tokenize (text : String) : Lexed := tokenizeChars text.toList

end PagedHtml.Css
