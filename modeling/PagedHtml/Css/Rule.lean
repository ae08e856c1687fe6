/-
**Rules: selectors and a block of declarations.**

`Rule.readAll` reads the rules of a style sheet. Spaces and the marks of an HTML comment may stand
between rules, and rules that start with an at-keyword are read and dropped.

The two readers of text, `parseRules` and `parseDeclarations`, refuse a text that breaks off inside
a token before they look at any token.
-/

import PagedHtml.Css.Declaration

namespace PagedHtml.Css

/-- A rule: its selectors as text, and its declarations in order. -/
structure Rule where
  selectors : List String
  declarations : List Declaration
  deriving Repr

namespace Rule

/-- The selectors of a rule: its components divided at commas and written as text, none of it blank.
-/
def selectors? (components : List Component) : Option (List String) :=
  let isComma : Component → Bool
    | .token .comma => true
    | _ => false
  let texts := (Text.pieces isComma components).map fun part => Text.trim (Component.serialize part)
  if texts.contains "" then none else some texts

/-- Reads a rule, the first token of which is the first of its selectors. -/
def read (tokens : List Token) : Outcome Rule :=
  let start := Component.readUntil (fun token => token = .leftBrace ∨ token = .rightBrace) tokens
  match start.result with
  | .error fault => .refuse fault start.rest
  | .ok components =>
    match start.rest with
    | .leftBrace :: rest =>
      match selectors? components with
      | none => .refuse .emptySelector (.leftBrace :: rest)
      | some selectors =>
        let block := Declaration.readAll true rest
        match block.result with
        | .error fault => .refuse fault block.rest
        | .ok declarations => .ok ⟨selectors, declarations⟩ (block.rest.drop 1)
    | .rightBrace :: rest => .refuse .strayClosingBrace (.rightBrace :: rest)
    | rest => .refuse (.missingBlock (Text.trim (Component.serialize components))) rest

theorem read_suffix (tokens : List Token) : (read tokens).rest <:+ tokens := by
  have start := Component.readUntil_suffix
    (fun token => token = .leftBrace ∨ token = .rightBrace) tokens
  unfold read
  simp only
  split
  · exact start
  · split
    · next rest equal =>
      rw [equal] at start
      have block := (Declaration.readAll_suffix true rest).trans (List.suffix_cons .leftBrace rest)
      split
      · exact start
      · split
        · exact block.trans start
        · exact ((List.drop_suffix 1 _).trans block).trans start
    · next rest equal =>
      rw [equal] at start
      exact start
    · exact start

/-- A rule takes at least its brace. -/
theorem length_rest_read_lt {tokens : List Token} {rule : Rule}
    (accepted : (read tokens).result = .ok rule) :
    (read tokens).rest.length < tokens.length := by
  have start := (Component.readUntil_suffix
    (fun token => token = .leftBrace ∨ token = .rightBrace) tokens).length_le
  unfold read at accepted ⊢
  simp only at accepted ⊢
  split at accepted
  · simp [Outcome.refuse] at accepted
  · split at accepted
    · next rest equal =>
      have block := (Declaration.readAll_suffix true rest).length_le
      rw [equal, List.length_cons] at start
      split at accepted
      · simp [Outcome.refuse] at accepted
      · split at accepted
        · simp [Outcome.refuse] at accepted
        · simp_all only [Outcome.ok, List.length_drop]
          omega
    · simp [Outcome.refuse] at accepted
    · simp [Outcome.refuse] at accepted

/-- Reads rules to the end. -/
def readAll (tokens : List Token) : Outcome (List Rule) :=
  match tokens with
  | [] => .ok [] []
  | .whitespace :: rest => readAll rest
  | .commentOpen :: rest => readAll rest
  | .commentClose :: rest => readAll rest
  | .endOfFile :: rest => .ok [] (.endOfFile :: rest)
  | .rightBrace :: rest => .refuse .strayClosingBrace (.rightBrace :: rest)
  | .atKeyword _ :: rest =>
    have _bound := length_rest_skipAtRule_le rest
    let skipped := skipAtRule rest
    match skipped.result with
    | .error fault => .refuse fault skipped.rest
    | .ok () => readAll skipped.rest
  | other :: rest =>
    let first := read (other :: rest)
    match accepted : first.result with
    | .error fault => .refuse fault first.rest
    | .ok rule =>
      have _bound := length_rest_read_lt accepted
      (readAll first.rest).map (rule :: ·)
termination_by tokens.length
decreasing_by all_goals (simp only [List.length_cons] at *; omega)

theorem readAll_suffix (tokens : List Token) : (readAll tokens).rest <:+ tokens := by
  fun_induction readAll tokens with
  | case1 | case5 | case6 => exact List.suffix_rfl
  | case2 rest ih | case3 rest ih | case4 rest ih => exact ih.trans (List.suffix_cons _ rest)
  | case7 name rest => exact (skipAtRule_suffix rest).trans (List.suffix_cons _ rest)
  | case8 name rest _ skipped _ ih =>
    exact (ih.trans (skipAtRule_suffix rest)).trans (List.suffix_cons _ rest)
  | case9 other rest => exact read_suffix (other :: rest)
  | case10 other rest _ _ _ _ _ _ first _ _ _ ih => exact ih.trans (read_suffix (other :: rest))

end Rule

/-! ### Reading text -/

/-- The tokens of a text that does not break off inside one of them. -/
def tokensOf (text : String) : Except Fault (List Token) :=
  let lexed := tokenize text
  match lexed.faults with
  | [] => .ok lexed.tokens
  | fault :: _ => .error (.cutOff fault)

def parseRules (text : String) : Except Fault (List Rule) :=
  tokensOf text >>= fun tokens => (Rule.readAll tokens).result

/-- The declarations of a `style` attribute. -/
def parseDeclarations (text : String) : Except Fault (List Declaration) :=
  tokensOf text >>= fun tokens => (Declaration.readAll false tokens).result

end PagedHtml.Css
