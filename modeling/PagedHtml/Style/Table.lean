/-
**Tables: the styles of a style sheet, by selector.**

A table keeps its selectors in the order in which they first came. A selector that comes again keeps
its place, and its style is replaced.
-/

import PagedHtml.Keyed
import PagedHtml.Style.Map

namespace PagedHtml.Style

/-- Styles by selector. -/
abbrev Table := Keyed Map

namespace Table

def empty : Table := Keyed.empty

/-- The table of a list of styles by selector, the later of which win. -/
def ofList (entries : List (String × Map)) : Table :=
  entries.foldl (fun table (selector, style) => table.insert selector style) empty

end Table

end PagedHtml.Style
