/-
**The default styles of tags.**

A small style sheet that comes before all others. It says only what the output can show: sizes and
margins of headings and paragraphs, faces of text, and tables as flexible rows and columns.
-/

import PagedHtml.Style.Table
import PagedHtml.Tag

namespace PagedHtml.Style.Default

/-- The space above and below a block. -/
def margins (space : String) : List (Property × String) :=
  [(.marginTop, space), (.marginBottom, space)]

def heading (size space : String) : List (Property × String) :=
  (.fontSize, size) :: margins space ++ [(.fontWeight, "bold")]

/-- A list: space above and below, and room for the markers. -/
def listing : List (Property × String) := margins "12px" ++ [(.paddingLeft, "20px")]

def row : List (Property × String) := [(.display, "flex"), (.flexDirection, "row")]

def column : List (Property × String) := [(.display, "flex"), (.flexDirection, "column")]

/-- A cell that takes an equal share of its row. -/
def cell : List (Property × String) := [(.flexBasis, "1px"), (.flexGrow, "1")]

def line : List (Property × String) :=
  [(.borderBottomWidth, "1px"), (.borderBottomStyle, "solid"), (.borderBottomColor, "gray")]

/-- The assignments for each tag that has any. -/
def assignments : List (Tag × List (Property × String)) :=
  [(.body, [(.fontSize, "12px")]),
   (.heading1, heading "32px" "21px"),
   (.heading2, heading "24px" "20px"),
   (.heading3, heading "19px" "18px"),
   (.heading4, heading "16px" "21px"),
   (.heading5, heading "13px" "22px"),
   (.heading6, heading "11px" "24px"),
   (.paragraph, margins "12px"),
   (.quotation, margins "12px" ++ [(.marginLeft, "40px"), (.marginRight, "40px")]),
   (.preformatted, (.fontFamily, "Courier") :: margins "12px"),
   (.code, [(.fontFamily, "Courier")]),
   (.bulletList, listing),
   (.numberedList, listing),
   (.listItem, row),
   (.bold, [(.fontWeight, "bold")]),
   (.strong, [(.fontWeight, "bold")]),
   (.italic, [(.fontStyle, "italic")]),
   (.emphasis, [(.fontStyle, "italic")]),
   (.underline, [(.textDecoration, "underline")]),
   (.inserted, [(.textDecoration, "underline")]),
   (.strike, [(.textDecoration, "line-through")]),
   (.deleted, [(.textDecoration, "line-through")]),
   (.small, [(.fontSize, "10px")]),
   (.subscript, [(.verticalAlign, "sub")]),
   (.superscript, [(.verticalAlign, "super")]),
   (.mark, [(.backgroundColor, "yellow")]),
   (.anchor, [(.color, "blue"), (.textDecoration, "underline")]),
   (.rule, margins "8px" ++ line),
   (.table, column),
   (.tableHead, column),
   (.tableBody, column),
   (.tableFoot, column),
   (.tableRow, row),
   (.dataCell, cell),
   (.headerCell, cell ++ [(.fontWeight, "bold")])]

/-- The style of some assignments of texts. -/
def styleOf (assignments : List (Property × String)) : Map :=
  Map.ofList (assignments.map fun (property, value) => (property, .text value))

/-- The default styles, by the names of the tags. -/
def table : Table :=
  Table.ofList (assignments.map fun (tag, assignments) => (tag.name, styleOf assignments))

/-- The default style of a tag, by its name in small letters. -/
def style? (tag : String) : Option Map := table.get? tag

end PagedHtml.Style.Default
