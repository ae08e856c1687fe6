/-
**What declarations and style sheets set.**

Of several declarations of a property the last one counts, and of several rules for a selector the
last one. A declaration sets the property whose name its own name becomes when hyphens, low lines
and points are dropped; so a property whose name is a single word is also set by this word with any
number of them behind it.

* `get?_ofDeclarations`, `diagnostics_ofDeclarations`: a style has the value of the last declaration
  that sets the property, and a declaration that sets none is reported;
* `resolve?_eq_some_iff`: which declarations set a property whose name is a single word;
* `get?_ofText`: a style sheet has the style of the last rule for a selector.
-/

import Mathlib.Data.String.Basic
import PagedHtml.Proofs.Folding
import PagedHtml.Proofs.Keyed
import PagedHtml.Proofs.Text.LetterCase
import PagedHtml.Style.Declared

namespace PagedHtml

namespace Style

open Css (Declaration)

/-! ### Declarations -/

/-- The value to which a declaration sets a property, if it sets it. -/
def sets? (property : Property) (declaration : Declaration) : Option Value :=
  if declaration.valueText ≠ "" ∧
      resolve? declaration.name declaration.valueText = some property then
    some (.text declaration.valueText)
  else none

theorem sets?_eq_some_iff {property : Property} {declaration : Declaration} {text : String} :
    sets? property declaration = some (.text text) ↔
      (declaration.valueText ≠ "" ∧
        resolve? declaration.name declaration.valueText = some property) ∧
      declaration.valueText = text := by
  rw [sets?]
  split
  · next holds => simp [holds]
  · next fails => simp [fails]

theorem sets?_eq_none_iff {property : Property} {declaration : Declaration} :
    sets? property declaration = none ↔
      ¬ (declaration.valueText ≠ "" ∧
        resolve? declaration.name declaration.valueText = some property) := by
  rw [sets?, ite_eq_right_iff]
  exact imp_congr_right fun _ => iff_of_false nofun id

theorem get?_addDeclaration (source : String) (style : Map) (declaration : Declaration)
    (property : Property) :
    (addDeclaration source style declaration).value.get? property =
      (sets? property declaration).or (style.get? property) := by
  rw [addDeclaration, sets?]
  by_cases empty : declaration.valueText = ""
  · simp [empty]
  · cases resolved : resolve? declaration.name declaration.valueText with
    | none =>
      simp only [empty, if_false, Reported.value_bind, Reported.value_pure]
      simp
    | some other =>
      by_cases same : property = other
      · simp [empty, same]
      · simp [empty, same, Ne.symm same]

/-- **A style has the value of the last declaration that sets the property.** -/
theorem get?_ofDeclarations (source : String) (declarations : List Declaration)
    (property : Property) :
    (ofDeclarations source declarations).value.get? property =
      declarations.reverse.findSome? (sets? property) := by
  rw [ofDeclarations, Reported.value_foldlM,
    observe_foldl (fun style : Map => style.get? property)
      fun style declaration => get?_addDeclaration source style declaration property]
  exact Option.or_none

/-- What is reported of a declaration: that it is unsupported, if it has a value and sets nothing.
-/
def unsupported? (source : String) (declaration : Declaration) : Option Diagnostic :=
  if declaration.valueText ≠ "" ∧
      resolve? declaration.name declaration.valueText = none then
    some (.unsupportedProperty source declaration.name declaration.valueText)
  else none

theorem diagnostics_addDeclaration (source : String) (style : Map) (declaration : Declaration) :
    (addDeclaration source style declaration).diagnostics =
      (unsupported? source declaration).toList := by
  rw [addDeclaration, unsupported?]
  by_cases empty : declaration.valueText = ""
  · simp [empty]
  · cases resolved : resolve? declaration.name declaration.valueText with
    | none =>
      simp only [empty, ne_eq, not_false_eq_true, and_self, if_false, if_true,
        Reported.diagnostics_bind, Reported.diagnostics_pure, List.append_nil]
      rfl
    | some property => simp [empty]

/-- **Every declaration that sets nothing is reported**, in the order of the declarations. -/
theorem diagnostics_ofDeclarations (source : String) (declarations : List Declaration) :
    (ofDeclarations source declarations).diagnostics =
      declarations.filterMap (unsupported? source) := by
  rw [ofDeclarations, Reported.diagnostics_foldlM (diagnostics_addDeclaration source),
    List.filterMap_eq_flatMap_toList]

/-! ### Names of properties that are a single word -/

/-- A character that a name loses on the way to the form of the output. -/
def IsMark (c : Char) : Prop := c = '-' ∨ c = '_' ∨ c = '.'

theorem IsMark.not_isAlpha {c : Char} (mark : IsMark c) : c.isAlpha = false := by
  rcases mark with rfl | rfl | rfl <;> decide

theorem IsMark.not_isLower {c : Char} (mark : IsMark c) : c.isLower = false :=
  (Bool.or_eq_false_iff.mp mark.not_isAlpha).2

/-- Behind a mark a word can only go on with a capital. -/
theorem camelizeFrom_true_eq_iff {chars word : List Char} (small : ∀ c ∈ word, c.isLower = true) :
    camelizeFrom true chars = word ↔ word = [] ∧ ∀ c ∈ chars, IsMark c := by
  induction chars with
  | nil => simp [camelizeFrom, eq_comm]
  | cons c rest ih =>
    rw [camelizeFrom]
    split
    · next mark =>
      rw [ih, List.forall_mem_cons]
      simp [IsMark, mark]
    · next other =>
      refine iff_of_false (fun same => ?_) fun all => other (all.2 c List.mem_cons_self)
      have lower := small c.toUpper (same ▸ List.mem_cons_self)
      rw [Text.isLower_toUpper] at lower
      cases lower

/-- A name becomes a word of small letters if it is this word with marks behind it. -/
theorem camelizeFrom_false_eq_iff {chars word : List Char}
    (small : ∀ c ∈ word, c.isLower = true) :
    camelizeFrom false chars = word ↔ ∃ marks, (∀ c ∈ marks, IsMark c) ∧ chars = word ++ marks := by
  induction chars generalizing word with
  | nil => simp [camelizeFrom, eq_comm]
  | cons c rest ih =>
    rw [camelizeFrom]
    split
    · next mark =>
      rw [camelizeFrom_true_eq_iff small]
      constructor
      · rintro ⟨rfl, marks⟩
        exact ⟨c :: rest, List.forall_mem_cons.mpr ⟨mark, marks⟩, rfl⟩
      · rintro ⟨marks, all, split⟩
        cases word with
        | nil =>
          rw [List.nil_append] at split
          exact ⟨rfl, fun other member => all other (split ▸ List.mem_cons_of_mem c member)⟩
        | cons first word =>
          obtain ⟨rfl, -⟩ := List.cons.inj split
          have lower := small c List.mem_cons_self
          rw [IsMark.not_isLower mark] at lower
          cases lower
    · next other =>
      cases word with
      | nil =>
        refine iff_of_false nofun ?_
        rintro ⟨marks, all, rfl⟩
        exact other (all c List.mem_cons_self)
      | cons first word =>
        rw [List.cons.injEq, ih fun c member => small c (List.mem_cons_of_mem first member)]
        simp [and_left_comm]

theorem Property.ofName?_eq_some_iff {name : String} {property : Property} :
    Property.ofName? name = some property ↔ property.name = name := by
  constructor
  · intro found
    have named : (property.name == name) = true := by simpa using List.find?_some found
    exact eq_of_beq named
  · rintro rfl
    exact Property.ofName?_name property

/-- **A property whose name is a single word is set by this word**, with any number of hyphens, low
lines and points behind it and in any letter case. -/
theorem resolve?_eq_some_iff {property : Property} {name value : String}
    (word : ∀ c ∈ property.name.toList, c.isLower = true) :
    resolve? name value = some property ↔
      ∃ marks, (∀ c ∈ marks, IsMark c) ∧
        (Text.lower name).toList = property.name.toList ++ marks := by
  have single : property ≠ .backgroundColor := by
    rintro rfl
    exact absurd (word 'C' (by decide)) (by decide)
  have resolves : resolve? name value = some property ↔
      Property.ofName? (camelize (Text.lower name)) = some property := by
    rw [resolve?]
    cases Property.ofName? (camelize (Text.lower name)) with
    | some other => rfl
    | none =>
      refine iff_of_false (fun same => ?_) nofun
      dsimp only at same
      split at same
      · exact single (Option.some.inj same).symm
      · cases same
  rw [resolves, Property.ofName?_eq_some_iff, camelize, eq_comm, String.ofList_eq,
    camelizeFrom_false_eq_iff word]

/-! ### Style sheets -/

/-- The style that a rule sets for a selector, if it is one of the selectors of the rule. -/
def ruleStyle? (selector : String) (rule : Css.Rule) : Option Map :=
  if selector ∈ rule.selectors then
    some (ofDeclarations (", ".intercalate rule.selectors) rule.declarations).value
  else none

theorem get?_addRule (table : Table) (rule : Css.Rule) (selector : String) :
    (addRule table rule).value.get? selector =
      (ruleStyle? selector rule).or (table.get? selector) := by
  rw [addRule, Reported.value_bind, Reported.value_pure,
    observe_foldl (fun table : Table => table.get? selector)
      fun table other => Keyed.get?_insert_or table other selector _,
    findSome?_ite_eq, ruleStyle?]
  simp only [List.mem_reverse]

/-- **A style sheet has the style of the last rule for a selector.** -/
theorem get?_ofText {text : String} {rules : List Css.Rule} (read : Css.parseRules text = .ok rules)
    (selector : String) :
    (Table.ofText text).value.get? selector =
      rules.reverse.findSome? (ruleStyle? selector) := by
  rw [Table.ofText, read]
  simp only
  rw [Reported.value_foldlM,
    observe_foldl (fun table : Table => table.get? selector)
      fun table rule => get?_addRule table rule selector]
  exact Option.or_none

end Style

end PagedHtml
