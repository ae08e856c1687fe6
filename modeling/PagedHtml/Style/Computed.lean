/-
**The output's values for a host's computed values.**

The output knows single words and whole `rgb` colors. `ofComputed` keeps a leading color with its
arguments set in order, or the leading word of any other value; `none` means that the property is
not set at all.
-/

import PagedHtml.Style.Property
import PagedHtml.Text.Ascii
import PagedHtml.Text.Blank

namespace PagedHtml.Style

/-- What a value is set on. -/
inductive Target where
  | element
  | text
  deriving DecidableEq, Repr

/-- A computed value without a word to keep. -/
structure InvalidValue where
  property : Property
  value : String
  deriving DecidableEq, Repr

def InvalidValue.message (failure : InvalidValue) : String :=
  "\"" ++ failure.value ++ "\" is not a valid value for " ++ failure.property.name

/-- The font family that stands for a family without a word, such as a quoted name. -/
def fallbackFontFamily : String := "Helvetica"

/-- Whether a property means anything for a target: bare text has no extent of its own. -/
def appliesTo (property : Property) : Target → Bool
  | .element => true
  | .text => !([.width, .height, .minWidth, .minHeight, .maxWidth, .maxHeight].contains property)

def isWordChar (c : Char) : Bool :=
  c.isAlphanum || c == '_' || c == '.' || c == '%' || c == '#' || c == '-'

def leadingWord (chars : List Char) : List Char := chars.takeWhile isWordChar

/-- Whether a name is that of a color call, letter case aside. -/
def isColorName (name : List Char) : Bool :=
  let lowered := name.map Char.toLower
  lowered == "rgb".toList || lowered == "rgba".toList

/-- Arguments without the blanks around them, with a comma and a space between them. -/
def spacedArguments (arguments : List Char) : List Char :=
  List.intercalate [',', ' '] ((Text.pieces (· == ',') arguments).map Text.trimChars)

/-- The call of `rgb` or `rgba` at the front, its arguments set in order. -/
def leadingColor? (chars : List Char) : Option (List Char) :=
  match Text.divideAt? (· == '(') chars with
  | none => none
  | some (name, afterOpening) =>
    if isColorName name then
      (Text.divideAt? (· == ')') afterOpening).map fun (arguments, _) =>
        name ++ '(' :: (spacedArguments arguments ++ [')'])
    else none

/-- The value that the output gets for a computed value, if the property is to be set at all. Lines
keep a fixed height, and what grows not at all grows by one share. -/
def ofComputed (property : Property) (target : Target) (raw : String) :
    Except InvalidValue (Option String) :=
  let value := Text.trimChars raw.toList
  if value = "none".toList ∨ !appliesTo property target then .ok none
  else if property = .lineHeight then .ok (some "1")
  else
    match leadingColor? value with
    | some color => .ok (some (String.ofList color))
    | none =>
      let word := leadingWord value
      if word.isEmpty then
        if property = .fontFamily then .ok (some fallbackFontFamily)
        else .error ⟨property, raw⟩
      else if property = .flexGrow ∧ word = ['0'] then .ok (some "1")
      else .ok (some (String.ofList word))

end PagedHtml.Style
