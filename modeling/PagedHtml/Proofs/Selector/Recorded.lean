/-
**How a style sheet records a rule for a single condition.**

The selectors of a rule are recorded as text, in which the names stand without the escapes that they
had in the style sheet. The text is read again as a selector when the style is looked for.

* `Css.Rule.selectors_of_spells`: a rule with plain tokens and no comma before its block has one
  selector, which is what these tokens are written as;
* `SimpleSelector.recorded_single`: where the tokens are those of a condition, the style sheet has a
  style under the condition as it is written, and this text is read as the condition just if its
  name consists of characters of names and has no blank at an end.
-/

import PagedHtml.Proofs.Css.Embedding
import PagedHtml.Proofs.Selector.Single
import PagedHtml.Proofs.Style.Declared

namespace PagedHtml

open Css (Token Component)

/-- The tokens that a condition is read from. -/
def SimpleSelector.tokens : SimpleSelector → List Token
  | .type name => [.ident name]
  | .class name => [.delim '.', .ident name]
  | .id name => [.hash name]
  | .universal => [.delim '*']

namespace Css

/-! ### A rule in its style sheet -/

namespace Rule

/-- **That a rule of a style sheet is spelt by some of its tokens.** -/
inductive SpelledIn (spelling : List Token) (rule : Rule) : List Token → List Rule → Prop
  | here {tokens : List Token} {rules : List Rule} : Spells spelling rule →
      SpellsAll tokens rules → SpelledIn spelling rule (spelling ++ tokens) (rule :: rules)
  | skip {token : Token} {tokens : List Token} {rules : List Rule} :
      token = .whitespace ∨ token = .commentOpen ∨ token = .commentClose →
      SpelledIn spelling rule tokens rules → SpelledIn spelling rule (token :: tokens) rules
  | atRule {before tokens : List Token} {rules : List Rule} : AtRule before →
      SpelledIn spelling rule tokens rules → SpelledIn spelling rule (before ++ tokens) rules
  | later {first tokens : List Token} {other : Rule} {rules : List Rule} : Spells first other →
      SpelledIn spelling rule tokens rules →
      SpelledIn spelling rule (first ++ tokens) (other :: rules)

section

variable {spelling tokens : List Token} {rule : Rule} {rules : List Rule}

theorem SpelledIn.spells (spelled : SpelledIn spelling rule tokens rules) :
    Spells spelling rule := by
  induction spelled with
  | here spells _ => exact spells
  | skip _ _ ih | atRule _ _ ih | later _ _ ih => exact ih

theorem SpelledIn.spellsAll (spelled : SpelledIn spelling rule tokens rules) :
    SpellsAll tokens rules := by
  induction spelled with
  | here spells rest => exact .cons spells rest
  | skip isBetween _ ih => exact .skip isBetween ih
  | atRule isRule _ ih => exact .atRule isRule ih
  | later spells _ ih => exact .cons spells ih

theorem SpelledIn.mem (spelled : SpelledIn spelling rule tokens rules) : rule ∈ rules := by
  induction spelled with
  | here => exact List.mem_cons_self
  | skip _ _ ih | atRule _ _ ih => exact ih
  | later _ _ ih => exact List.mem_cons_of_mem _ ih

/-! ### Selectors of plain tokens -/

/-- The only selector where there is no comma. -/
theorem selectors?_eq_some_of_notMem {components : List Component} {texts : List String}
    (without : .token .comma ∉ components) (selected : selectors? components = some texts) :
    texts = [selectorText components] := by
  obtain ⟨selectors, nonempty, -, rfl, rfl⟩ := selectors?_eq_some_iff.mp selected
  match selectors with
  | [] => exact absurd rfl nonempty
  | [selector] => rw [List.intercalate_singleton]; rfl
  | first :: next :: others =>
    rw [List.intercalate_cons_cons] at without
    simp at without

/-- Plain tokens spell themselves. -/
theorem spells_map_token {lead : List Token} (plain : ∀ token ∈ lead, token.IsPlain) :
    Component.Spells lead (lead.map .token) := by
  induction lead with
  | nil => exact .nil
  | cons first rest ih =>
    obtain ⟨here, later⟩ := List.forall_mem_cons.mp plain
    exact .plain here (ih later)

theorem comma_notMem_map_token {lead : List Token} (without : ∀ token ∈ lead, token ≠ .comma) :
    .token .comma ∉ lead.map Component.token := by
  intro member
  obtain ⟨token, inside, same⟩ := List.mem_map.mp member
  exact without token inside (Component.token.inj same)

/-- **The selector of a rule with plain tokens before its brace** is what these are written as. -/
theorem selectors_of_spells {lead block : List Token}
    (plain : ∀ token ∈ lead, token.IsPlain ∧ token ≠ .comma ∧ token ≠ .rightBrace)
    (spells : Spells (lead ++ .leftBrace :: block) rule) :
    rule.selectors = [selectorText (lead.map .token)] := by
  have start : Component.readUntil (fun token => token = .leftBrace ∨ token = .rightBrace)
      (lead ++ .leftBrace :: block) = .ok (lead.map .token) (.leftBrace :: block) := by
    refine Component.readUntil_eq_ok_iff.mpr
      ⟨lead, rfl, spells_map_token fun token member => (plain token member).1, ?_, ?_⟩
    · intro component member
      obtain ⟨token, inside, rfl⟩ := List.mem_map.mp member
      obtain ⟨⟨closed, -⟩, -, notBrace⟩ := plain token inside
      have notOpening : token ≠ .leftBrace := by
        rintro rfl
        cases closed
      simp [Component.lead, notOpening, notBrace]
    · intro next same
      cases Option.some.inj same
      simp
  have without := comma_notMem_map_token fun token member => (plain token member).2.1
  -- However the tokens spell the rule, the reader stops before the first brace.
  have accepted := read_of_spells spells []
  rw [List.append_nil, read, start] at accepted
  simp only [Outcome.ok] at accepted
  split at accepted
  · exact absurd accepted Outcome.refuse_ne_ok
  · next texts selected =>
    rw [selectors?_eq_some_of_notMem without selected] at accepted
    split at accepted
    · exact absurd accepted Outcome.refuse_ne_ok
    · have same := congrArg Outcome.result accepted
      rw [← Except.ok.inj same]

end

end Rule

/-! ### The text of plain tokens -/

namespace Component

theorem writeAll_append (written : List Char) (first second : List Component) :
    writeAll written (first ++ second) = writeAll (writeAll written first) second := by
  induction first generalizing written with
  | nil => rw [List.nil_append, writeAll]
  | cons component rest ih => rw [List.cons_append, writeAll, writeAll, ih]

/-- Spaces behind what is written are trimmed away. -/
theorem trimChars_writeAll_spaces {spaces : List Token}
    (blank : ∀ token ∈ spaces, token = .whitespace) (written : List Char) :
    Text.trimChars (writeAll written (spaces.map .token)).reverse =
      Text.trimChars written.reverse := by
  induction spaces generalizing written with
  | nil => rw [List.map_nil, writeAll]
  | cons first rest ih =>
    obtain ⟨rfl, later⟩ := List.forall_mem_cons.mp blank
    rw [List.map_cons, writeAll, ih later, write]
    split
    · rfl
    · rw [List.reverse_cons, Text.trimChars_append_of_isBlank Text.isBlank_space]

/-- The text of a condition with spaces behind it. -/
theorem selectorText_tokens (simple : SimpleSelector) {spaces : List Token}
    (blank : ∀ token ∈ spaces, token = .whitespace) :
    Rule.selectorText ((simple.tokens ++ spaces).map .token) = Text.trim simple.text := by
  have written : writeAll [] (simple.tokens.map .token) = simple.text.toList.reverse := by
    cases simple <;> simp [SimpleSelector.tokens, SimpleSelector.text, writeAll, write, Token.css]
  rw [Rule.selectorText, serialize, Text.trim, Text.trim, String.toList_ofList, List.map_append,
    writeAll_append, trimChars_writeAll_spaces blank, written, List.reverse_reverse]

end Component

end Css

/-! ### What is recorded -/

section

variable {simple : SimpleSelector} {spaces : List Token}

theorem SimpleSelector.plain_tokens (blank : ∀ token ∈ spaces, token = .whitespace) :
    ∀ token ∈ simple.tokens ++ spaces,
      token.IsPlain ∧ token ≠ .comma ∧ token ≠ .rightBrace := by
  intro token member
  rcases List.mem_append.mp member with inside | space
  · cases simple with
    | type name | id name | universal =>
      obtain rfl := List.mem_singleton.mp inside
      exact ⟨⟨rfl, nofun, nofun, nofun⟩, nofun, nofun⟩
    | «class» name =>
      rcases List.mem_pair.mp inside with rfl | rfl <;>
        exact ⟨⟨rfl, nofun, nofun, nofun⟩, nofun, nofun⟩
  · obtain rfl := blank token space
    exact ⟨⟨rfl, nofun, nofun, nofun⟩, nofun, nofun⟩

/-- A condition, spaces and a block spell a rule, if the condition is not blank. -/
theorem Css.Rule.spells_single {block : List Token} {declarations : List Css.Declaration}
    (blank : ∀ token ∈ spaces, token = .whitespace) (visible : Text.trim simple.text ≠ "")
    (body : Css.Declaration.SpellsAll block declarations) :
    Spells (simple.tokens ++ spaces ++ .leftBrace :: (block ++ [.rightBrace]))
      ⟨[Text.trim simple.text], declarations⟩ := by
  have plain := simple.plain_tokens blank
  rw [← Css.Component.selectorText_tokens simple blank] at visible ⊢
  have joined : [Component.token .comma].intercalate
      [(simple.tokens ++ spaces).map Component.token] = (simple.tokens ++ spaces).map .token :=
    List.intercalate_singleton
  refine @Spells.mk _ _ [(simple.tokens ++ spaces).map .token] _ ?_ ?_ ?_ (by simp) ?_ body
  · rw [joined]
    exact spells_map_token fun token member => (plain token member).1
  · rw [joined]
    intro component member
    obtain ⟨token, inside, rfl⟩ := List.mem_map.mp member
    refine ⟨fun same => (plain token inside).2.2 (Component.token.inj same), ?_⟩
    rintro ⟨contents, same⟩
    cases same
  · rw [joined]
    cases simple <;> simp [SimpleSelector.tokens, IsBetween]
  · rw [List.forall_mem_singleton]
    exact ⟨comma_notMem_map_token fun token member => (plain token member).2.1, visible⟩

end

/-- What a rule of a style sheet selects, the style sheet has a style for. -/
theorem Style.isSome_get?_ofText {text : String} {rules : List Css.Rule} {rule : Css.Rule}
    {selector : String} (read : Css.parseRules text = .ok rules) (member : rule ∈ rules)
    (selected : selector ∈ rule.selectors) :
    ((Table.ofText text).value.get? selector).isSome := by
  rw [get?_ofText read, List.findSome?_isSome_iff]
  refine ⟨rule, List.mem_reverse.mpr member, ?_⟩
  rw [ruleStyle?, if_pos selected]
  rfl

/-- **How a style sheet records a rule for a single condition**: under the condition as it is
written, without blanks around it. This text is read as the condition just if the name consists of
characters of names and there are no blanks around it; the condition matches the elements that
satisfy it. -/
theorem SimpleSelector.recorded_single {text : String} {simple : SimpleSelector}
    {spaces block tokens : List Token} {rule : Css.Rule} {rules : List Css.Rule}
    (lexed : Css.tokensOf text = .ok tokens)
    (blank : ∀ token ∈ spaces, token = .whitespace)
    (spelled : Css.Rule.SpelledIn (simple.tokens ++ spaces ++ .leftBrace :: block) rule tokens
      rules) :
    (Css.parseRules text = .ok rules ∧ rule ∈ rules ∧
      rule.selectors = [Text.trim simple.text] ∧
      ((Style.Table.ofText text).value.get? (Text.trim simple.text)).isSome) ∧
    (Selector.parse? (Text.trim simple.text) = some ⟨[simple], []⟩ ↔
      simple.IsSpellable ∧ Text.trim simple.text = simple.text) ∧
    ∀ (content : Content) (id : Nat),
      id ∈ Selector.matchesIn ⟨[simple], []⟩ content.outline ↔
        ∃ data, content.outline.element? id = some data ∧
          Selector.satisfies data simple = true := by
  have read : Css.parseRules text = .ok rules := by
    rw [Css.parseRules, lexed]
    exact Css.Rule.readAll_of_spellsAll spelled.spellsAll
  have selected := Css.Rule.selectors_of_spells (simple.plain_tokens blank) spelled.spells
  rw [Css.Component.selectorText_tokens simple blank] at selected
  have recorded := Style.isSome_get?_ofText read spelled.mem
    (selected ▸ List.mem_singleton_self (Text.trim simple.text))
  refine ⟨⟨read, spelled.mem, selected, recorded⟩, ?_, Selector.mem_matchesIn_single_iff⟩
  have once : Text.trim (Text.trim simple.text) = Text.trim simple.text := by
    rw [Text.trim, Text.trim, String.toList_ofList,
      Text.trimChars_eq_self_iff.mpr (Text.isTrimmed_trimChars _)]
  rw [Selector.parse?_eq_single_iff, once]

/-- A class that is written with an escape. -/
theorem SimpleSelector.recorded_single_escaped :
    let text := ".\\61 b \x7bcolor:red\x7d"
    ∃ rule, Css.parseRules text = .ok [rule] ∧ rule.selectors = [".ab"] ∧
      ((Style.Table.ofText text).value.get? ".ab").isSome ∧
      Selector.parse? ".ab" = some ⟨[.class "ab"], []⟩ := by
  intro text
  have lexed : Css.tokensOf text = .ok [.delim '.', .ident "ab", .whitespace, .leftBrace,
      .ident "color", .colon, .ident "red", .rightBrace, .endOfFile] :=
    Css.tokensOf_eq_ok_iff.mpr ⟨by decide +kernel, by decide +kernel⟩
  have declared : Css.Declaration.Spells [.ident "color", .colon, .ident "red"]
      ⟨"color", [.token (.ident "red")], false⟩ :=
    @Css.Declaration.Spells.mk "color" [] [] _ _ _ _ (by simp) (by simp)
      (Css.Rule.spells_word "red") (by simp) (by simp)
      (Css.Declaration.stripImportant_eq_iff.mp rfl)
  have blank : ∀ token ∈ [Token.whitespace], token = .whitespace := by simp
  have written : Text.trim (SimpleSelector.class "ab").text = ".ab" := by decide +kernel
  have spelt := Css.Rule.spells_single blank (by rw [written]; decide) (.last declared)
  obtain ⟨⟨read, -, selected, recorded⟩, single, -⟩ :=
    recorded_single lexed blank (.here spelt .done)
  rw [written] at selected recorded single
  exact ⟨_, read, selected, recorded, single.mpr ⟨by decide +kernel, rfl⟩⟩

/-- A class with a point in its name is recorded as two classes, and nowhere as one. -/
theorem SimpleSelector.recorded_point :
    let text := ".a\\.b\x7b\x7d"
    Css.tokensOf text = .ok [.delim '.', .ident "a.b", .leftBrace, .rightBrace, .endOfFile] ∧
      Css.parseRules text = .ok [⟨[".a.b"], []⟩] ∧
      Selector.parse? ".a.b" = some ⟨[.class "a", .class "b"], []⟩ ∧
      ∀ key, ((Style.Table.ofText text).value.get? key).isSome →
        Selector.parse? key ≠ some ⟨[.class "a.b"], []⟩ := by
  intro text
  have lexed : Css.tokensOf text =
      .ok [.delim '.', .ident "a.b", .leftBrace, .rightBrace, .endOfFile] :=
    Css.tokensOf_eq_ok_iff.mpr ⟨by decide +kernel, by decide +kernel⟩
  have written : Text.trim (SimpleSelector.class "a.b").text = ".a.b" := by decide +kernel
  have spelt := @Css.Rule.spells_single (.class "a.b") [] [] [] nofun
    (by rw [written]; decide) .nil
  rw [written] at spelt
  have read : Css.parseRules text = .ok [⟨[".a.b"], []⟩] := by
    rw [Css.parseRules, lexed]
    exact Css.Rule.readAll_of_spellsAll (.cons spelt .done)
  have double : Selector.parse? ".a.b" = some ⟨[.class "a", .class "b"], []⟩ := by decide +kernel
  refine ⟨lexed, read, double, fun key recorded => ?_⟩
  obtain rfl : key = ".a.b" := by
    by_contra other
    rw [Style.get?_ofText read] at recorded
    simp [Style.ruleStyle?, other] at recorded
  rw [double]
  decide

end PagedHtml
