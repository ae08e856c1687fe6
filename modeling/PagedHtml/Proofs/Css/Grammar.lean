/-
**The grammar of style sheets.**

What tokens spell which declarations and rules, stated without a reader. Each construct spells a
list of tokens as a whole, so that where it ends shows in how the list is put together.

* at-rules (`AtRule`): a prelude, and a semicolon or one braced block; only the last rule of a style
  sheet may go without either (`AtRule.Start`);
* declarations (`Declaration.Spells`), whose values lose a mark of importance and the spaces around
  it (`Declaration.Annotated`), and their lists (`Declaration.SpellsAll`), where a semicolon stands
  behind each declaration but the last; where nothing is around a list, an at-rule that goes without
  an end may be the last of it (`Declaration.SpellsOpen`);
* rules (`Rule.Spells`), whose selectors are what stands between commas, and style sheets
  (`Rule.SpellsAll`).

The two constructs that are read from components, not from tokens, are decided by their readers:
`stripImportant_eq_iff` and `selectors?_eq_some_iff`.
-/

import PagedHtml.Css.Rule
import PagedHtml.Proofs.Css.Spelling
import PagedHtml.Proofs.Text.Pieces
import Mathlib.Data.List.Induction

namespace PagedHtml

namespace Css

/-! ### At-rules -/

/-- A block in braces. -/
def Component.IsBraced (component : Component) : Prop :=
  ∃ contents, component = .block .brace contents

/-- An at-rule up to where it ends. -/
inductive AtRule.Start : List Token → Prop
  | mk {name : String} {tokens : List Token} {components : List Component} :
      Component.Spells tokens components →
      (∀ component ∈ components, component ≠ .token .semicolon ∧
        component ≠ .token .rightBrace ∧ ¬ component.IsBraced) →
      Start (.atKeyword name :: tokens)

/-- **A rule that starts with an at-keyword.** -/
inductive AtRule : List Token → Prop
  | semicolon {start : List Token} : AtRule.Start start → AtRule (start ++ [.semicolon])
  | block {start block : List Token} {contents : List Component} : AtRule.Start start →
      Component.Spells block [.block .brace contents] → AtRule (start ++ block)

/-! ### Declarations -/

namespace Declaration

/-- A mark of importance: an exclamation mark, spaces, and the word in any letter case. -/
inductive Mark : List Component → Prop
  | mk {spaces : List Component} {word : String} :
      (∀ component ∈ spaces, component = .token .whitespace) →
      Text.equalsIgnoringCase word "important" = true →
      Mark (.token (.delim '!') :: spaces ++ [.token (.ident word)])

/-- **What remains of a value** without the spaces at its end and a mark of importance there, and
whether there is such a mark. -/
inductive Annotated : List Component → List Component → Bool → Prop
  | marked {kept spaces mark after : List Component} :
      kept.getLast? ≠ some (.token .whitespace) →
      (∀ component ∈ spaces, component = .token .whitespace) → Mark mark →
      (∀ component ∈ after, component = .token .whitespace) →
      Annotated (kept ++ spaces ++ mark ++ after) kept true
  | plain {kept after : List Component} :
      kept.getLast? ≠ some (.token .whitespace) → (∀ mark, Mark mark → ¬ mark <:+ kept) →
      (∀ component ∈ after, component = .token .whitespace) →
      Annotated (kept ++ after) kept false

/-- **A declaration**: a name, a colon and a value, which starts with no space. -/
inductive Spells : List Token → Declaration → Prop
  | mk {name : String} {before after tokens : List Token} {components value : List Component}
      {important : Bool} :
      (∀ token ∈ before, token = .whitespace) → (∀ token ∈ after, token = .whitespace) →
      Component.Spells tokens components →
      (∀ component ∈ components,
        component ≠ .token .semicolon ∧ component ≠ .token .rightBrace) →
      components.head? ≠ some (.token .whitespace) →
      Annotated components value important →
      Spells (.ident name :: before ++ .colon :: after ++ tokens) ⟨name, value, important⟩

/-- **A list of declarations.** -/
inductive SpellsAll : List Token → List Declaration → Prop
  | nil : SpellsAll [] []
  | skip {token : Token} {tokens : List Token} {declarations : List Declaration} :
      token = .whitespace ∨ token = .semicolon → SpellsAll tokens declarations →
      SpellsAll (token :: tokens) declarations
  | atRule {rule tokens : List Token} {declarations : List Declaration} :
      AtRule rule → SpellsAll tokens declarations → SpellsAll (rule ++ tokens) declarations
  | last {tokens : List Token} {declaration : Declaration} :
      Spells tokens declaration → SpellsAll tokens [declaration]
  | cons {first tokens : List Token} {declaration : Declaration}
      {declarations : List Declaration} :
      Spells first declaration → SpellsAll tokens declarations →
      SpellsAll (first ++ .semicolon :: tokens) (declaration :: declarations)

/-- **Declarations with an at-rule behind them that nothing ends.** -/
inductive SpellsOpen : List Token → List Declaration → Prop
  | unended {start : List Token} : AtRule.Start start → SpellsOpen start []
  | skip {token : Token} {tokens : List Token} {declarations : List Declaration} :
      token = .whitespace ∨ token = .semicolon → SpellsOpen tokens declarations →
      SpellsOpen (token :: tokens) declarations
  | atRule {rule tokens : List Token} {declarations : List Declaration} :
      AtRule rule → SpellsOpen tokens declarations → SpellsOpen (rule ++ tokens) declarations
  | cons {first tokens : List Token} {declaration : Declaration}
      {declarations : List Declaration} :
      Spells first declaration → SpellsOpen tokens declarations →
      SpellsOpen (first ++ .semicolon :: tokens) (declaration :: declarations)

end Declaration

/-! ### Rules -/

namespace Rule

/-- The text of one selector. -/
def selectorText (components : List Component) : String :=
  Text.trim (Component.serialize components)

/-- What does not start a rule: spaces, the marks of an HTML comment, and at-keywords. -/
def IsBetween (component : Component) : Prop :=
  component = .token .whitespace ∨ component = .token .commentOpen ∨
    component = .token .commentClose ∨ ∃ name, component = .token (.atKeyword name)

/-- **A rule**: selectors with commas between them, none of them blank, and declarations in braces.
-/
inductive Spells : List Token → Rule → Prop
  | mk {tokens block : List Token} {selectors : List (List Component)}
      {declarations : List Declaration} :
      Component.Spells tokens ([.token .comma].intercalate selectors) →
      (∀ component ∈ [.token .comma].intercalate selectors,
        component ≠ .token .rightBrace ∧ ¬ component.IsBraced) →
      (∀ first ∈ ([.token .comma].intercalate selectors).head?, ¬ IsBetween first) →
      selectors ≠ [] →
      (∀ selector ∈ selectors, .token .comma ∉ selector ∧ selectorText selector ≠ "") →
      Declaration.SpellsAll block declarations →
      Spells (tokens ++ .leftBrace :: (block ++ [.rightBrace]))
        ⟨selectors.map selectorText, declarations⟩

/-- **A style sheet**, the end of it included. -/
inductive SpellsAll : List Token → List Rule → Prop
  | done : SpellsAll [.endOfFile] []
  | skip {token : Token} {tokens : List Token} {rules : List Rule} :
      token = .whitespace ∨ token = .commentOpen ∨ token = .commentClose →
      SpellsAll tokens rules → SpellsAll (token :: tokens) rules
  | atRule {rule tokens : List Token} {rules : List Rule} :
      AtRule rule → SpellsAll tokens rules → SpellsAll (rule ++ tokens) rules
  | unended {start : List Token} : AtRule.Start start → SpellsAll (start ++ [.endOfFile]) []
  | cons {first tokens : List Token} {rule : Rule} {rules : List Rule} :
      Spells first rule → SpellsAll tokens rules → SpellsAll (first ++ tokens) (rule :: rules)

end Rule

/-! ### Marks of importance -/

namespace Declaration

theorem isWhitespace_iff {component : Component} :
    component.isWhitespace = true ↔ component = .token .whitespace := by
  constructor
  · intro space
    unfold Component.isWhitespace at space
    split at space
    · rfl
    · cases space
  · rintro rfl
    rfl

/-- Spaces at the end are dropped, up to what is no space. -/
theorem dropWhile_reverse_append {kept after : List Component}
    (ends : kept.getLast? ≠ some (.token .whitespace))
    (spaces : ∀ component ∈ after, component = .token .whitespace) :
    (kept ++ after).reverse.dropWhile Component.isWhitespace = kept.reverse := by
  rw [List.reverse_append, List.dropWhile_append_of_pos fun component member =>
    isWhitespace_iff.mpr (spaces component (List.mem_reverse.mp member))]
  rw [← List.head?_reverse] at ends
  cases first : kept.reverse with
  | nil => rfl
  | cons last front =>
    rw [first] at ends
    refine List.dropWhile_cons_of_neg fun space => ends ?_
    rw [isWhitespace_iff.mp space]
    rfl

/-- Every value ends with spaces, perhaps none, behind what does not. -/
theorem exists_spaces_at_end (value : List Component) :
    ∃ kept after, value = kept ++ after ∧ kept.getLast? ≠ some (.token .whitespace) ∧
      ∀ component ∈ after, component = .token .whitespace := by
  induction value using List.reverseRecOn with
  | nil => exact ⟨[], [], rfl, by simp, by simp⟩
  | append_singleton front last ih =>
    by_cases space : last = .token .whitespace
    · obtain ⟨kept, after, rfl, ends, spaces⟩ := ih
      refine ⟨kept, after ++ [last], by simp, ends, ?_⟩
      rw [List.forall_mem_append]
      exact ⟨spaces, by simpa using space⟩
    · exact ⟨front ++ [last], [], by simp, by simpa using space, by simp⟩

/-- Something remains of every value. -/
theorem Annotated.exists (value : List Component) :
    ∃ kept important, Annotated value kept important := by
  obtain ⟨kept, after, rfl, ends, spaces⟩ := exists_spaces_at_end value
  by_cases marked : ∃ mark, Mark mark ∧ mark <:+ kept
  · obtain ⟨mark, isMark, front, rfl⟩ := marked
    obtain ⟨front, between, rfl, endsFront, spacesBetween⟩ := exists_spaces_at_end front
    exact ⟨front, true, .marked endsFront spacesBetween isMark spaces⟩
  · refine ⟨kept, false, .plain ends (fun mark isMark last => marked ⟨mark, isMark, last⟩) spaces⟩

/-- What remains of a value is its front. -/
theorem Annotated.isPrefix {components value : List Component} {important : Bool}
    (annotated : Annotated components value important) : value <+: components := by
  cases annotated with
  | @marked _ spaces mark after =>
    exact ⟨spaces ++ mark ++ after, by simp only [List.append_assoc]⟩
  | @plain _ after => exact ⟨after, rfl⟩

/-- A mark of importance read backwards. -/
theorem reverse_append_mark (front spaces : List Component) (word : String) :
    (front ++ (Component.token (.delim '!') :: spaces ++ [Component.token (.ident word)])).reverse =
      Component.token (.ident word) ::
        (spaces.reverse ++ Component.token (.delim '!') :: front.reverse) := by
  simp

theorem dropWhile_reverse_mark {spaces front : List Component}
    (blank : ∀ component ∈ spaces, component = .token .whitespace) :
    (spaces.reverse ++ Component.token (.delim '!') :: front).dropWhile Component.isWhitespace =
      Component.token (.delim '!') :: front := by
  rw [List.dropWhile_append_of_pos fun component member =>
    isWhitespace_iff.mpr (blank component (List.mem_reverse.mp member))]
  rfl

theorem stripImportant_of_annotated {components value : List Component} {important : Bool}
    (annotated : Annotated components value important) :
    stripImportant components = (value, important) := by
  cases annotated with
  | @marked _ spaces mark after ends spacesBefore isMark spacesAfter =>
    cases isMark with
    | @mk between word blank isImportant =>
      have endsMark : (value ++ spaces ++ (Component.token (.delim '!') :: between ++
          [Component.token (.ident word)])).getLast? ≠ some (.token .whitespace) := by
        rw [← List.head?_reverse, reverse_append_mark]
        simp
      rw [stripImportant, dropWhile_reverse_append endsMark spacesAfter, reverse_append_mark]
      simp only [isImportant, if_true, dropWhile_reverse_mark blank,
        dropWhile_reverse_append ends spacesBefore, List.reverse_reverse]
  | @plain _ after ends unmarked spaces =>
    rw [stripImportant, dropWhile_reverse_append ends spaces]
    simp only [List.reverse_reverse]
    split
    · next word before found =>
      split
      · next isImportant =>
        split
        · next front marked =>
          -- What is found backwards is a mark at the end of what remains.
          have spaced := List.takeWhile_append_dropWhile (p := Component.isWhitespace) (l := before)
          rw [marked] at spaced
          have isMark : Mark (.token (.delim '!') ::
              (before.takeWhile Component.isWhitespace).reverse ++ [.token (.ident word)]) :=
            .mk (fun component member => isWhitespace_iff.mp
              (List.all_eq_true.mp List.all_takeWhile _ (List.mem_reverse.mp member))) isImportant
          have backwards := reverse_append_mark front.reverse
            (before.takeWhile Component.isWhitespace).reverse word
          rw [List.reverse_reverse, List.reverse_reverse, spaced, ← found,
            List.reverse_inj] at backwards
          exact absurd ⟨front.reverse, backwards⟩ (unmarked _ isMark)
        · rfl
      · rfl
    · rfl

/-- **What remains of a value is found from its end.** -/
theorem stripImportant_eq_iff {components value : List Component} {important : Bool} :
    stripImportant components = (value, important) ↔ Annotated components value important := by
  refine ⟨fun stripped => ?_, stripImportant_of_annotated⟩
  obtain ⟨kept, marked, annotated⟩ := Annotated.exists components
  rw [stripImportant_of_annotated annotated] at stripped
  cases stripped
  exact annotated

end Declaration

/-! ### Selectors between commas -/

/-- **The selectors of a rule are what stands between its commas**, if none is blank. -/
theorem Rule.selectors?_eq_some_iff {components : List Component} {texts : List String} :
    Rule.selectors? components = some texts ↔
      ∃ selectors : List (List Component), selectors ≠ [] ∧
        (∀ selector ∈ selectors, .token .comma ∉ selector ∧ selectorText selector ≠ "") ∧
        components = [.token .comma].intercalate selectors ∧
        texts = selectors.map selectorText := by
  obtain ⟨isComma, only, unfolded⟩ : ∃ isComma : Component → Bool,
      (∀ component, isComma component = true ↔ component = .token .comma) ∧
      Rule.selectors? components =
        if ((Text.pieces isComma components).map selectorText).contains "" then none
        else some ((Text.pieces isComma components).map selectorText) := by
    refine ⟨_, fun component => ?_, rfl⟩
    split
    · simp
    · next other => simpa using other
  rw [unfolded]
  constructor
  · intro accepted
    obtain ⟨nonempty, without, joined⟩ :=
      (Text.pieces_eq_iff only).mp (Eq.refl (Text.pieces isComma _))
    split at accepted
    · cases accepted
    · next visible =>
      cases accepted
      refine ⟨_, nonempty, fun selector member => ⟨without selector member, fun blank => ?_⟩,
        joined.symm, rfl⟩
      exact visible (List.contains_iff_mem.mpr (blank ▸ List.mem_map_of_mem member))
  · rintro ⟨selectors, nonempty, each, joined, rfl⟩
    have divided := (Text.pieces_eq_iff only).mpr
      ⟨nonempty, fun selector member => (each selector member).1, joined.symm⟩
    rw [divided, if_neg]
    intro blank
    obtain ⟨selector, member, text⟩ := List.mem_map.mp (List.contains_iff_mem.mp blank)
    exact (each selector member).2 text

end Css

end PagedHtml
