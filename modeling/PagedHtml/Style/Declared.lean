/-
**The styles that style sheet text declares.**

A declaration resolves to the property that its name spells (`camelize`), or to the background color
if its value is plainly a color and its name spells none; any other declaration is reported and
dropped (`ofDeclarations`). A style sheet becomes a table of its selectors (`Table.ofText`) and the
text of a `style` attribute a style (`Map.ofAttribute`); text that cannot be read is reported and
gives nothing.
-/

import PagedHtml.Css.Rule
import PagedHtml.Diagnostic
import PagedHtml.Style.Table

namespace PagedHtml.Style

open Css (Declaration)

/-! ### Names and values of declarations -/

/-- Drops hyphens, low lines and points, and makes the character after any of them a capital;
`raised` tells that one was just dropped. -/
def camelizeFrom (raised : Bool) : List Char → List Char
  | [] => []
  | c :: rest =>
    if c = '-' ∨ c = '_' ∨ c = '.' then camelizeFrom true rest
    else (if raised then c.toUpper else c) :: camelizeFrom false rest

/-- A hyphenated name in the form of the output: `border-top` becomes `borderTop`. -/
def camelize (name : String) : String := String.ofList (camelizeFrom false name.toList)

/-- Whether a value is one word of ASCII letters and digits, perhaps behind a number sign. -/
def isColorWord (value : String) : Bool :=
  let word :=
    match value.toList with
    | '#' :: rest => rest
    | chars => chars
  !word.isEmpty && word.all Char.isAlphanum

/-- Whether a value is a call of the function `name` whose arguments are not empty and hold only
allowed characters. -/
def isColorCall (name : String) (allowed : Char → Bool) (value : String) : Bool :=
  match Text.afterIgnoringCase? name.toList value.toList with
  | none => false
  | some rest =>
    match rest.reverse with
    | ')' :: arguments => !arguments.isEmpty && arguments.all allowed
    | _ => false

/-- Whether a declaration that names no property of the vocabulary is read as a background color:
the shorthand with a single word, or any color call with plain numbers. -/
def isBackgroundColor (name value : String) : Bool :=
  let isRgb (c : Char) := c.isDigit || c == ',' || c == ' '
  let isHsl (c : Char) := c.isDigit || c == '.' || c == '%' || c == ',' || c == ' '
  (name == "background" && isColorWord value) ||
    isColorCall "rgb(" isRgb value || isColorCall "rgba(" isRgb value ||
    isColorCall "hsl(" isHsl value || isColorCall "hsla(" isHsl value

/-- The property that a declaration sets. -/
def resolve? (name value : String) : Option Property :=
  let camel := camelize (Text.lower name)
  match Property.ofName? camel with
  | some property => some property
  | none => if isBackgroundColor camel value then some .backgroundColor else none

/-! ### Styles of declarations -/

/-- Adds a declaration to a style. A declaration without a value does nothing. -/
def addDeclaration (source : String) (style : Map) (declaration : Declaration) : Reported Map :=
  let value := declaration.valueText
  if value = "" then pure style
  else
    match resolve? declaration.name value with
    | some property => pure (style.insert property (.text value))
    | none => do
      Reported.emit (.unsupportedProperty source declaration.name value)
      pure style

/-- The style of some declarations, the later of which win. -/
def ofDeclarations (source : String) (declarations : List Declaration) : Reported Map :=
  declarations.foldlM (addDeclaration source) Map.empty

/-- Adds a rule to a table: each of its selectors gets the style of its declarations. -/
def addRule (table : Table) (rule : Css.Rule) : Reported Table := do
  let style ← ofDeclarations (", ".intercalate rule.selectors) rule.declarations
  pure (rule.selectors.foldl (fun table selector => table.insert selector style) table)

/-- The table of a style sheet. -/
def Table.ofText (text : String) : Reported Table :=
  match Css.parseRules text with
  | .ok rules => rules.foldlM addRule Table.empty
  | .error fault => do
    Reported.emit (.parseFailure "style" text fault.message)
    pure Table.empty

/-- The style of a `style` attribute on an element with the given tag. -/
def Map.ofAttribute (text tag : String) : Reported Map :=
  match Css.parseDeclarations (Text.trim text) with
  | .ok declarations => ofDeclarations tag declarations
  | .error fault => do
    Reported.emit (.parseFailure tag text fault.message)
    pure Map.empty

end PagedHtml.Style
