/-
**Cutting JSON text into lexemes.**

`lexemes` cuts text into brackets, commas, colons and scalars, up to its end or up to the first
piece that is none of these, which becomes a `broken` lexeme. A reader that only skips over a value
is laxer than one that reads it: it minds neither half of a surrogate pair nor a number beyond the
range of doubles, and some breaks look different to it (`Break`).

Numbers are read with a significand below `2 ^ 64` and one multiplication or division by a power of
ten (`numberValue?`), so the last bit may differ from the nearest double.
-/

import PagedHtml.Json.Node
import PagedHtml.Number.Literal
import PagedHtml.Text.Hex

namespace PagedHtml.Json

open Number (Double Literal Exponent)

/-- A piece of JSON text. -/
inductive Lexeme where
  | openBrace
  | closeBrace
  | openBracket
  | closeBracket
  | comma
  | colon
  | null
  | bool (value : Bool)
  /-- A number, if it is in the range of doubles. -/
  | number (value : Option Double)
  /-- Text in quotes, if no half of a surrogate pair stands alone in it. -/
  | text (value : Option String)
  /-- A piece that is broken; `isText` tells that it starts with a quote. -/
  | broken (isText : Bool) (cause : Break)
  deriving DecidableEq, Repr

/-! ### Text in quotes -/

/-- A character of quoted text, or a code unit given by number. -/
inductive TextUnit where
  | char (c : Char)
  | unit (code : Nat)
  deriving DecidableEq, Repr

/-- The first half of a surrogate pair. -/
def isLeading (code : Nat) : Bool := 0xD800 ≤ code && code ≤ 0xDBFF

/-- The second half of a surrogate pair. -/
def isTrailing (code : Nat) : Bool := 0xDC00 ≤ code && code ≤ 0xDFFF

/-- The characters of quoted text, if every half of a surrogate pair has its other half. -/
def pairUnits : List TextUnit → Option (List Char)
  | [] => some []
  | .char c :: rest => (pairUnits rest).map (c :: ·)
  | .unit code :: rest =>
    if isTrailing code then none
    else if isLeading code then
      match rest with
      | .unit other :: more =>
        if isTrailing other then
          let char := Char.ofNat (0x10000 + (code - 0xD800) * 0x400 + (other - 0xDC00))
          (pairUnits more).map (char :: ·)
        else none
      | _ => none
    else (pairUnits rest).map (Char.ofNat code :: ·)

def escaped? : Char → Option Char
  | '"' => some '"'
  | '\\' => some '\\'
  | '/' => some '/'
  | 'b' => some '\x08'
  | 'f' => some '\x0C'
  | 'n' => some '\n'
  | 'r' => some '\r'
  | 't' => some '\t'
  | _ => none

/-- The length of characters in UTF-8. -/
def byteLength (chars : List Char) : Nat :=
  chars.foldl (fun length c => length + c.utf8Size) 0

/-- Takes quoted text, of which the opening quote is already taken: its units, and what follows the
closing quote unless the text is broken. -/
def takeText : List Char → List TextUnit × Except Fault (List Char)
  | [] => ([], .error .cutShort)
  | '"' :: rest => ([], .ok rest)
  | ['\\'] => ([], .error .cutShort)
  | '\\' :: 'u' :: digits =>
    if byteLength digits < 4 then ([], .error .cutShort)
    else
      match digits with
      | a :: b :: c :: d :: rest =>
        match Text.hexNumber? [a, b, c, d] with
        | some code =>
          let (units, ending) := takeText rest
          (.unit code :: units, ending)
        | none => ([], .error .malformed)
      | _ => ([], .error .malformed)
  | '\\' :: letter :: rest =>
    match escaped? letter with
    | some c =>
      let (units, ending) := takeText rest
      (.char c :: units, ending)
    | none => ([], .error .malformed)
  | c :: rest =>
    if c.toNat < 0x20 then ([], .error .malformed)
    else
      let (units, ending) := takeText rest
      (.char c :: units, ending)

/-- Units without a first half of a surrogate pair at their end, which still awaits its other half.
-/
def dropAwaiting (units : List TextUnit) : List TextUnit :=
  match units.reverse with
  | .unit code :: before => if isLeading code then before.reverse else units
  | _ => units

/-- The lexeme of quoted text, and what follows it. Text that breaks off is already malformed to a
reader if a surrogate pair is broken before that. -/
def textLexeme (chars : List Char) : Lexeme × List Char :=
  let (units, ending) := takeText chars
  match ending with
  | .ok rest => (.text ((pairUnits units).map String.ofList), rest)
  | .error fault =>
    let whenRead := if (pairUnits (dropAwaiting units)).isSome then fault else .malformed
    (.broken true ⟨whenRead, fault⟩, [])

/-! ### Numbers -/

/-- A significand below `2 ^ 64`, and the power of ten by which it falls short of the number. -/
structure Scaled where
  significand : Nat
  power : Int
  /-- Whether a digit has already been left out. -/
  full : Bool

namespace Scaled

/-- A further digit before the point: one that no longer fits counts as a place. -/
def addWhole (s : Scaled) (digit : Char) : Scaled :=
  let next := 10 * s.significand + (digit.toNat - '0'.toNat)
  if s.full || 0x10000000000000000 ≤ next then { s with power := s.power + 1, full := true }
  else { s with significand := next }

/-- A further digit after the point: one that no longer fits is left out. -/
def addFraction (s : Scaled) (digit : Char) : Scaled :=
  let next := 10 * s.significand + (digit.toNat - '0'.toNat)
  if s.full || 0x10000000000000000 ≤ next then { s with full := true }
  else { s with significand := next, power := s.power - 1 }

/-- The significand and power of a literal, its exponent aside. -/
def ofLiteral (l : Literal) : Scaled :=
  let whole := l.whole.foldl addWhole ⟨0, 0, false⟩
  l.fraction.foldl addFraction { whole with full := false }

end Scaled

def tenTo (power : Nat) : Double := Double.ofDecimal false 1 power

/-- A double divided by a power of ten, in steps of at most 308 places. -/
def divideByTenTo (value : Double) (power : Nat) : Double :=
  if value.code = 0 then value
  else if power ≤ 308 then value.div (tenTo power)
  else divideByTenTo (value.div (tenTo 308)) (power - 308)
termination_by power

/-- A double times a power of ten, if that is in the range of doubles. -/
def timesTenTo? (value : Double) (power : Int) : Option Double :=
  match power with
  | .negSucc places => some (divideByTenTo value (places + 1))
  | .ofNat places =>
    if value.code = 0 then some value
    else if 308 < places then none
    else
      let product := value.mul (tenTo places)
      if product.isInfinite then none else some product

/-- The greatest exponent that is looked at digit by digit. -/
def exponentLimit : Int := 0x7FFFFFFF

/-- The value of a number, if it is in the range of doubles. -/
def numberValue? (l : Literal) : Option Double :=
  let scaled := Scaled.ofLiteral l
  let exponent := (l.exponent.map Exponent.value).getD 0
  let magnitude :=
    if scaled.significand = 0 ∨ exponent < -exponentLimit then some Double.zero
    else if exponentLimit < exponent then none
    else timesTenTo? (Double.ofNat scaled.significand) (scaled.power + exponent)
  magnitude.map fun value => { value with negative := decide (l.sign = some '-') }

/-- How a number is broken, if it is: it has no digit before the point or a needless zero there, or
a point or mark follows that no digit follows. -/
def numberBreak? (l : Literal) (rest : List Char) : Option Break :=
  let dangling (after : List Char) : Break :=
    ⟨if after.isEmpty then .cutShort else .malformed, .malformed⟩
  if l.whole.isEmpty then
    let isCut := rest.isEmpty && l.fraction.isEmpty && l.exponent.isNone
    some ⟨if isCut then .cutShort else .malformed, .malformed⟩
  else if l.whole.head? = some '0' ∧ 1 < l.whole.length then some (.both .malformed)
  else if l.exponent.isSome then none
  else
    match rest with
    | '.' :: after => if l.fraction.isEmpty then some (dangling after) else none
    | c :: after =>
      if c == 'e' || c == 'E' then some (dangling (Literal.takeSign after).2) else none
    | [] => none

/-- The lexeme of a number, and what follows it. -/
def numberLexeme (chars : List Char) : Lexeme × List Char :=
  let (literal, rest) := Literal.take chars
  match numberBreak? literal rest with
  | some cause => (.broken false cause, [])
  | none => (.number (numberValue? literal), rest)

/-! ### Words -/

/-- What follows a word, letter by letter. -/
def takeWord : List Char → List Char → Except Fault (List Char)
  | [], chars => .ok chars
  | _ :: _, [] => .error .cutShort
  | letter :: word, c :: rest => if letter = c then takeWord word rest else .error .malformed

/-- The lexeme of a word, of which the first letter is already taken. -/
def wordLexeme (lexeme : Lexeme) (word : String) (chars : List Char) : Lexeme × List Char :=
  match takeWord word.toList chars with
  | .ok rest => (lexeme, rest)
  | .error fault => (.broken false (.both fault), [])

/-- The lexeme that starts with the character `c`, which is no space, and what follows it. -/
def lexemeAt (c : Char) (rest : List Char) : Lexeme × List Char :=
  if c = '\x7b' then (.openBrace, rest)
  else if c = '\x7d' then (.closeBrace, rest)
  else if c = '[' then (.openBracket, rest)
  else if c = ']' then (.closeBracket, rest)
  else if c = ',' then (.comma, rest)
  else if c = ':' then (.colon, rest)
  else if c = '"' then textLexeme rest
  else if c = 'n' then wordLexeme .null "ull" rest
  else if c = 't' then wordLexeme (.bool true) "rue" rest
  else if c = 'f' then wordLexeme (.bool false) "alse" rest
  else if c.isDigit ∨ c = '-' then numberLexeme (c :: rest)
  else (.broken false (.both .malformed), [])

/-! ### All lexemes of a text -/

theorem length_takeText_lt (chars : List Char) {rest : List Char}
    (closed : (takeText chars).2 = .ok rest) : rest.length < chars.length := by
  fun_induction takeText chars <;> simp_all <;> omega

theorem length_textLexeme_le (chars : List Char) :
    (textLexeme chars).2.length ≤ chars.length := by
  simp only [textLexeme]
  split
  · next rest closed =>
    have := length_takeText_lt chars closed
    simp only
    omega
  · simp

theorem length_takeWord_le {word chars rest : List Char} (taken : takeWord word chars = .ok rest) :
    rest.length ≤ chars.length := by
  fun_induction takeWord word chars <;> simp_all
  omega

theorem length_wordLexeme_le (lexeme : Lexeme) (word : String) (chars : List Char) :
    (wordLexeme lexeme word chars).2.length ≤ chars.length := by
  simp only [wordLexeme]
  split
  · next taken => exact length_takeWord_le taken
  · simp

theorem length_numberLexeme_le {c : Char} {rest : List Char} (starts : c.isDigit ∨ c = '-') :
    (numberLexeme (c :: rest)).2.length ≤ rest.length := by
  have taken : (Literal.take (c :: rest)).2.length < (c :: rest).length := by
    refine Literal.length_take_lt ?_
    rcases starts with digit | minus
    · exact .inr (.inr (.inl digit))
    · exact .inr (.inl minus)
  simp only [List.length_cons] at taken
  simp only [numberLexeme]
  split
  · simp
  · simp only
    omega

theorem length_lexemeAt_le (c : Char) (rest : List Char) :
    (lexemeAt c rest).2.length ≤ rest.length := by
  have text := length_textLexeme_le rest
  unfold lexemeAt
  repeat' (first | split)
  all_goals first
    | exact Nat.le_refl _
    | exact text
    | exact length_wordLexeme_le _ _ rest
    | exact length_numberLexeme_le (by assumption)
    | exact Nat.zero_le _

def isSpace (c : Char) : Bool := c == ' ' || c == '\n' || c == '\t' || c == '\r'

/-- The lexemes of some characters, the last of which is the only one that may be broken. -/
def lexemesOf (chars : List Char) : List Lexeme :=
  match chars with
  | [] => []
  | c :: rest =>
    if isSpace c then lexemesOf rest
    else
      have _bound := length_lexemeAt_le c rest
      let next := lexemeAt c rest
      next.1 :: lexemesOf next.2
termination_by chars.length
decreasing_by all_goals (simp only [List.length_cons]; omega)

def lexemes (text : String) : List Lexeme := lexemesOf text.toList

end PagedHtml.Json
