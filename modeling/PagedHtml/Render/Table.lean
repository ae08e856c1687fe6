/-
**Tables, rows and cells.**

A table separates its cells if it sets a spacing and does not collapse its borders. Where borders
collapse, a table leaves its left and top edges to its cells; a cell draws no right and bottom edge,
and all cells but the first of a row draw the edges that they share with their neighbours.
-/

import PagedHtml.Number.Literal
import PagedHtml.Render.Registry
import PagedHtml.Text.Blank

namespace PagedHtml.Render

/-- Whether the cells of a table with a given style have borders of their own. -/
def separatesCells (table : Style.Map) : Bool :=
  (table.get? .borderSpacing).any (fun value => value.text? != some "") &&
    (table.get? .borderCollapse >>= Style.Value.text?) != some "collapse"

/-- A style with the value that another style has for `source` set for `target`, if there is one. -/
def copyValue (source target : Style.Property) (origin style : Style.Map) : Style.Map :=
  match origin.get? source with
  | some value => style.insert target value
  | none => style

/-- A table: its own left and top edges are left out where borders collapse. -/
def table : Renderer := fun context => do
  let zero := Style.Value.ofNat 0
  let overrides :=
    if separatesCells context.element.style then Style.Map.empty
    else (Style.Map.empty.insert .borderLeftWidth zero).insert .borderTopWidth zero
  return .container (context.style ++ [overrides]) (← context.children)

/-- A row, which is not split across pages. -/
def row : Renderer := fun context => do
  return .unbreakable context.style (← context.children)

/-- The style that a cell takes over from its table. -/
def cellBase (table : Style.Map) (isFirst : Bool) : Style.Map :=
  let zero := Style.Value.ofNat 0
  let shared := [.border, .borderColor, .borderWidth, .borderStyle].foldl
    (fun style property => copyValue property property table style) Style.Map.empty
  if separatesCells table then
    copyValue .borderSpacing .margin table (copyValue .borderWidth .width table shared)
  else
    let edges := (shared.insert .borderRightWidth zero).insert .borderBottomWidth zero
    if isFirst then edges
    else
      copyValue .borderWidth .borderTopWidth table
        (copyValue .borderWidth .borderLeftWidth table edges)

/-- The number that a text spells in decimal digits, perhaps behind a plus sign, if it is below
`2 ^ 32`. -/
def wholeNumber? (text : String) : Option Nat :=
  let digits :=
    match text.toList with
    | '+' :: digits => digits
    | digits => digits
  let value := Number.digitsValue digits
  if digits.isEmpty || !digits.all Char.isDigit || 0x100000000 ≤ value then none else some value

/-- The style of a cell that spans several columns. -/
def spanStyle (element : StyledElement) : Style.Map :=
  match element.attributes.get? "colspan" >>= fun span => wholeNumber? (Text.trim span) with
  | some columns => Style.Map.empty.insert .flexBasis (.ofNat columns)
  | none => Style.Map.empty

/-- A cell, which takes over borders from the nearest table around it. -/
def cell : Renderer := fun context =>
  match (context.element :: context.around).find? fun element => element.tag == Tag.table.name with
  | none => .error (.cellOutsideTable context.element.tag)
  | some table => do
    let base := cellBase table.style (context.element.indexOfType == 0)
    return .container (base :: context.style ++ [spanStyle context.element]) (← context.children)

end PagedHtml.Render
