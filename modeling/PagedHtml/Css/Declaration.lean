/-
**Declarations: the name of a property, a colon, and a value.**

`Declaration.readAll` reads a list of declarations, which ends at the end of the text or, inside a
block, before the closing brace. Rules that start with an at-keyword are read and dropped
(`skipAtRule`).
-/

import PagedHtml.Css.Component.Reader
import PagedHtml.Text.Ascii
import PagedHtml.Text.Blank

namespace PagedHtml.Css

/-- A declaration. Its value has no spaces at its end and no mark of importance. -/
structure Declaration where
  name : String
  value : List Component
  important : Bool
  deriving Repr

/-- Skips a rule, of which the at-keyword is already taken. It ends with a semicolon, with a block,
or with the text. -/
def skipAtRule (tokens : List Token) : Outcome Unit :=
  let start :=
    Component.readUntil (fun token => token = .semicolon ∨ token = .leftBrace ∨ token = .rightBrace)
      tokens
  match start.result with
  | .error fault => .refuse fault start.rest
  | .ok _ =>
    match start.rest with
    | [] => .ok () []
    | .leftBrace :: rest => (Component.readBlock .brace rest).map fun _ => ()
    | .rightBrace :: rest => .refuse .strayClosingBrace (.rightBrace :: rest)
    | _ :: rest => .ok () rest

theorem skipAtRule_suffix (tokens : List Token) : (skipAtRule tokens).rest <:+ tokens := by
  have start := Component.readUntil_suffix
    (fun token => token = .semicolon ∨ token = .leftBrace ∨ token = .rightBrace) tokens
  unfold skipAtRule
  simp only
  split
  · exact start
  · split
    · exact List.nil_suffix
    · next rest equal =>
      rw [equal] at start
      exact ((Component.readBlock_suffix .brace rest).trans (List.suffix_cons _ rest)).trans start
    · next rest equal =>
      rw [equal] at start
      exact start
    · next next rest _ _ equal =>
      rw [equal] at start
      exact (List.suffix_cons next rest).trans start

theorem length_rest_skipAtRule_le (tokens : List Token) :
    (skipAtRule tokens).rest.length ≤ tokens.length :=
  (skipAtRule_suffix tokens).length_le

namespace Declaration

/-- The value as style sheet text, without blanks at its ends. -/
def valueText (declaration : Declaration) : String :=
  Text.trim (Component.serialize declaration.value)

/-- A value without the spaces at its end and without the mark of importance that may stand there:
an exclamation mark and the word `important`, in any letter case, with spaces where one likes. -/
def stripImportant (value : List Component) : List Component × Bool :=
  let reversed := value.reverse.dropWhile Component.isWhitespace
  let plain := (reversed.reverse, false)
  match reversed with
  | .token (.ident word) :: before =>
    if Text.equalsIgnoringCase word "important" then
      match before.dropWhile Component.isWhitespace with
      | .token (.delim '!') :: kept => ((kept.dropWhile Component.isWhitespace).reverse, true)
      | _ => plain
    else plain
  | _ => plain

/-- Tokens without the spaces at their front. -/
def skipSpaces (tokens : List Token) : List Token := tokens.dropWhile (· = .whitespace)

/-- Reads a declaration, of which the name is already taken. -/
def read (name : String) (tokens : List Token) : Outcome Declaration :=
  match skipSpaces tokens with
  | .colon :: rest =>
    (Component.readUntil (fun token => token = .semicolon ∨ token = .rightBrace)
      (skipSpaces rest)).map fun components =>
        let value := stripImportant components
        ⟨name, value.1, value.2⟩
  | rest => .refuse (.missingColon name) rest

theorem read_suffix (name : String) (tokens : List Token) :
    (read name tokens).rest <:+ tokens := by
  have spaces : skipSpaces tokens <:+ tokens := List.dropWhile_suffix _
  unfold read
  split
  · next rest equal =>
    rw [equal] at spaces
    have more : skipSpaces rest <:+ rest := List.dropWhile_suffix _
    have value := Component.readUntil_suffix (fun token => token = .semicolon ∨ token = .rightBrace)
      (skipSpaces rest)
    exact ((value.trans more).trans (List.suffix_cons _ rest)).trans spaces
  · exact spaces

theorem length_rest_read_le (name : String) (tokens : List Token) :
    (read name tokens).rest.length ≤ tokens.length :=
  (read_suffix name tokens).length_le

/-- Reads a list of declarations: up to the closing brace, which is left, inside a block, and to the
end otherwise. -/
def readAll (inBlock : Bool) (tokens : List Token) : Outcome (List Declaration) :=
  match tokens with
  | [] => if inBlock then .refuse (.unclosed .brace) [] else .ok [] []
  | .whitespace :: rest => readAll inBlock rest
  | .semicolon :: rest => readAll inBlock rest
  | .endOfFile :: rest =>
    if inBlock then .refuse (.unclosed .brace) (.endOfFile :: rest) else .ok [] (.endOfFile :: rest)
  | .rightBrace :: rest =>
    if inBlock then .ok [] (.rightBrace :: rest)
    else .refuse .strayClosingBrace (.rightBrace :: rest)
  | .atKeyword _ :: rest =>
    have _bound := length_rest_skipAtRule_le rest
    let skipped := skipAtRule rest
    match skipped.result with
    | .error fault => .refuse fault skipped.rest
    | .ok () => readAll inBlock skipped.rest
  | .ident name :: rest =>
    have _bound := length_rest_read_le name rest
    let first := read name rest
    match first.result with
    | .error fault => .refuse fault first.rest
    | .ok declaration => (readAll inBlock first.rest).map (declaration :: ·)
  | other :: rest => .refuse (.unexpected other) (other :: rest)
termination_by tokens.length
decreasing_by all_goals (simp only [List.length_cons]; omega)

theorem readAll_suffix (inBlock : Bool) (tokens : List Token) :
    (readAll inBlock tokens).rest <:+ tokens := by
  fun_induction readAll inBlock tokens with
  | case1 | case2 | case5 | case6 | case7 | case8 | case13 => exact List.suffix_rfl
  | case3 rest ih | case4 rest ih => exact ih.trans (List.suffix_cons _ rest)
  | case9 name rest => exact (skipAtRule_suffix rest).trans (List.suffix_cons _ rest)
  | case10 name rest _ skipped _ ih =>
    exact (ih.trans (skipAtRule_suffix rest)).trans (List.suffix_cons _ rest)
  | case11 name rest => exact (read_suffix name rest).trans (List.suffix_cons _ rest)
  | case12 name rest _ first _ _ ih =>
    exact (ih.trans (read_suffix name rest)).trans (List.suffix_cons _ rest)

end Declaration

end PagedHtml.Css
