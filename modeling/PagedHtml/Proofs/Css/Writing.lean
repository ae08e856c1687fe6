/-
**What components are written as, token by token.**

Components are written as the tokens that spell them (`Component.tokensAll`), one behind the other,
with one space for each run of spaces (`Token.squeeze`).

* `Component.Spells.eq_tokensAll`: the only tokens that spell components are their own;
* `Component.toList_serialize`: the text of components whose tokens are lexemes.
-/

import PagedHtml.Proofs.Css.Rereading

namespace PagedHtml.Css

/-! ### The tokens of components -/

namespace Component

mutual

/-- The tokens that spell a component. -/
def tokens : Component → List Token
  | .token first => [first]
  | .function name arguments => .function name :: (tokensAll arguments ++ [.rightParen])
  | .block bracket contents =>
    bracket.openingToken :: (tokensAll contents ++ [bracket.closingToken])

/-- The tokens that spell some components. -/
def tokensAll : List Component → List Token
  | [] => []
  | component :: rest => tokens component ++ tokensAll rest

end

theorem tokens_close {token : Token} {opening : Opening} (opens : token.opening? = some opening)
    (contents : List Component) :
    (opening.close contents).tokens =
      token :: (tokensAll contents ++ [opening.bracket.closingToken]) := by
  have lead := lead_close opens contents
  cases opening with
  | function name =>
    rw [← lead]
    rfl
  | block bracket =>
    rw [← lead]
    rfl

/-- **The tokens that spell components are theirs.** -/
theorem Spells.eq_tokensAll {spelling : List Token} {components : List Component}
    (spells : Spells spelling components) : spelling = tokensAll components := by
  induction spells with
  | nil => rfl
  | plain _ _ ih => exact congrArg _ ih
  | nested opens _ _ _ ihInside ih =>
    rw [tokensAll, tokens_close opens, ihInside, ih]
    simp

theorem mem_tokensAll {token : Token} {components : List Component} :
    token ∈ tokensAll components ↔ ∃ component ∈ components, token ∈ component.tokens := by
  induction components with
  | nil => simp [tokensAll]
  | cons first rest ih => simp [tokensAll, ih]

/-- A component is spelt with the token that it starts with at the front. -/
theorem exists_tokens_eq (component : Component) :
    ∃ rest, component.tokens = component.lead :: rest := by
  cases component <;> exact ⟨_, rfl⟩

end Component

/-! ### Runs of spaces -/

namespace Token

theorem cssAll_append (first second : List Token) :
    cssAll (first ++ second) = cssAll first ++ cssAll second :=
  List.flatMap_append

theorem apart_append_iff {rest : List Char} {first second : List Token} :
    Apart rest (first ++ second) ↔ Apart (cssAll second ++ rest) first ∧ Apart rest second := by
  induction first with
  | nil => exact ⟨fun apart => ⟨trivial, apart⟩, And.right⟩
  | cons token first ih =>
    rw [List.cons_append, Apart, Apart, ih, cssAll_append, List.append_assoc, and_assoc]

/-- Tokens without the spaces behind other spaces; `behindSpace` tells that a space stands in front
of them. -/
def squeeze (behindSpace : Bool) : List Token → List Token
  | [] => []
  | token :: rest =>
    if token = .whitespace then
      if behindSpace then squeeze true rest else token :: squeeze true rest
    else token :: squeeze false rest

/-- Squeezing leaves out only spaces. -/
theorem filter_squeeze (behindSpace : Bool) (tokens : List Token) :
    (squeeze behindSpace tokens).filter (· ≠ .whitespace) =
      tokens.filter (· ≠ .whitespace) := by
  induction tokens generalizing behindSpace with
  | nil => rfl
  | cons token rest ih =>
    rw [squeeze]
    split
    · next space =>
      subst space
      split <;> simpa using ih true
    · next visible =>
      rw [List.filter_cons_of_pos (by simpa using visible),
        List.filter_cons_of_pos (by simpa using visible), ih]

theorem mem_of_mem_squeeze {behindSpace : Bool} {tokens : List Token} {token : Token}
    (member : token ∈ squeeze behindSpace tokens) : token ∈ tokens := by
  induction tokens generalizing behindSpace with
  | nil => exact member
  | cons first rest ih =>
    rw [squeeze] at member
    split_ifs at member
    · exact List.mem_cons_of_mem _ (ih member)
    · exact List.mem_cons.mpr ((List.mem_cons.mp member).imp_right ih)
    · exact List.mem_cons.mpr ((List.mem_cons.mp member).imp_right ih)

/-- Tokens that do not run into each other have no space behind another. -/
theorem squeeze_of_apart {rest : List Char} {tokens : List Token} (apart : Apart rest tokens)
    {behindSpace : Bool} (first : behindSpace = true → tokens.head? ≠ some .whitespace) :
    squeeze behindSpace tokens = tokens := by
  induction tokens generalizing behindSpace with
  | nil => rfl
  | cons token tokens ih =>
    rw [squeeze]
    split
    · next space =>
      subst space
      have fresh : behindSpace = false := eq_false_of_ne_true fun behind => first behind rfl
      have next : tokens.head? ≠ some .whitespace := by
        intro same
        obtain ⟨more, rfl⟩ := List.head?_eq_some_iff.mp same
        have stop := apart.1 ' ' (by simp [cssAll, css])
        cases stop
      rw [fresh, ih apart.2 fun _ => next]
      rfl
    · rw [ih apart.2 fun behind => absurd behind Bool.false_ne_true]

/-- Writes a token behind what is written, which is held in reverse. -/
def write (written : List Char) (token : Token) : List Char :=
  if token = .whitespace then if written.head? = some ' ' then written else ' ' :: written
  else token.css.toList.reverse ++ written

/-- Lexemes are written one behind the other, with one space for each run of spaces. -/
theorem foldl_write {tokens : List Token} (lexemes : ∀ token ∈ tokens, token.IsLexeme)
    (written : List Char) :
    tokens.foldl write written =
      (cssAll (squeeze (written.head? = some ' ') tokens)).reverse ++ written := by
  induction tokens generalizing written with
  | nil => rfl
  | cons token tokens ih =>
    obtain ⟨lexeme, later⟩ := List.forall_mem_cons.mp lexemes
    rw [List.foldl_cons, ih later, write, squeeze]
    split
    · next space =>
      subst space
      split
      · next behind => simp [behind]
      · next fresh => simp [fresh, cssAll, css]
    · next visible =>
      have notSpace : (token.css.toList.reverse ++ written).head? ≠ some ' ' := by
        intro last
        have nonempty : token.css.toList.reverse ≠ [] := by simpa using lexeme.css_ne_nil
        rw [List.head?_append_of_ne_nil _ nonempty, List.head?_reverse] at last
        exact absurd ((lexeme.isSpace_of_end visible).2 ' ' last) (by decide)
      rw [decide_eq_false notSpace]
      simp [cssAll]

end Token

/-! ### The text of components -/

namespace Component

/-- Components are written token by token if each of them is. -/
theorem writeAll_eq_foldl {components : List Component}
    (each : ∀ component ∈ components, ∀ written,
      write written component = component.tokens.foldl Token.write written)
    (written : List Char) :
    writeAll written components = (tokensAll components).foldl Token.write written := by
  induction components generalizing written with
  | nil => rfl
  | cons component rest ih =>
    obtain ⟨here, later⟩ := List.forall_mem_cons.mp each
    rw [writeAll, here, ih later, tokensAll, List.foldl_append]

/-- **A component is written token by token.** -/
theorem write_eq_foldl (component : Component) (written : List Char) :
    write written component = component.tokens.foldl Token.write written := by
  cases component with
  | token first => cases first <;> rfl
  | function name arguments =>
    have inside (written : List Char) :
        writeAll written arguments = (tokensAll arguments).foldl Token.write written :=
      writeAll_eq_foldl (fun argument _ => write_eq_foldl argument) written
    rw [write, inside, tokens, List.foldl_cons, List.foldl_append]
    simp [Token.write, Token.css]
  | block bracket contents =>
    have inside (written : List Char) :
        writeAll written contents = (tokensAll contents).foldl Token.write written :=
      writeAll_eq_foldl (fun component _ => write_eq_foldl component) written
    rw [write, inside, tokens, List.foldl_cons, List.foldl_append]
    cases bracket <;> rfl

/-- **The text of components** whose tokens are lexemes: these tokens one behind the other, with one
space for each run of spaces. -/
theorem toList_serialize {components : List Component}
    (lexemes : ∀ token ∈ tokensAll components, token.IsLexeme) :
    (serialize components).toList = Token.cssAll (Token.squeeze false (tokensAll components)) := by
  have written : writeAll [] components = (tokensAll components).foldl Token.write [] :=
    writeAll_eq_foldl (fun component _ => write_eq_foldl component) []
  rw [serialize, String.toList_ofList, written, Token.foldl_write lexemes]
  simp

end Component

end PagedHtml.Css
