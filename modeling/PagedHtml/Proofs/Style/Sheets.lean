/-
**The table of a style sheet: its selectors in order, each with the last rule that names it.**

The rules of a style sheet name their selectors one after another (`namings`). The table is what
these pairs give when each is put under its selector (`value_ofText`): the selectors stand in the
order in which they are first named, and the style of a selector is that of the last rule that names
it, alone. A style sheet that cannot be read gives an empty table and one report.

* `Table.isFirsts_keys_ofList`, `Table.get?_ofList`: tables of any pairs;
* `get?_ofText_eq_some_iff`, `diagnostics_ofText`: the style of a selector, and what is reported;
* `ofText_sheet`: the table and the reports of any text.
-/

import Mathlib.Data.List.Induction
import PagedHtml.Proofs.Keyed
import PagedHtml.Proofs.Style.Declared

namespace PagedHtml.Style

/-! ### Tables of pairs -/

namespace Table

theorem ofList_concat (pairs : List (String × Map)) (pair : String × Map) :
    ofList (pairs ++ [pair]) = (ofList pairs).insert pair.1 pair.2 := by
  unfold ofList
  rw [List.foldl_concat]

/-- **The selectors stand in the order in which they first come.** -/
theorem isFirsts_keys_ofList (pairs : List (String × Map)) :
    IsFirsts (ofList pairs).keys (pairs.map Prod.fst) := by
  induction pairs using List.reverseRecOn with
  | nil => exact IsFirsts.nil
  | append_singleton pairs pair ih =>
    rw [ofList_concat, Keyed.keys_insert, List.map_append]
    exact ih.concat pair.1

theorem get?_ofList (pairs : List (String × Map)) (selector : String) :
    (ofList pairs).get? selector =
      pairs.reverse.findSome? fun pair => if selector = pair.1 then some pair.2 else none := by
  have inserts (table : Table) (pair : String × Map) :=
    Keyed.get?_insert_or table pair.1 selector pair.2
  exact (observe_foldl (fun table : Table => table.get? selector) inserts pairs empty).trans
    Option.or_none

end Table

/-! ### The rules of a style sheet -/

/-- The selectors that some rules name, each with its rule, in the order of the text. -/
def namings (rules : List Css.Rule) : List (String × Css.Rule) :=
  rules.flatMap fun rule => rule.selectors.map fun selector => (selector, rule)

/-- The style of the declarations of a rule, reported under its selectors. -/
def ofRule (rule : Css.Rule) : Reported Map :=
  ofDeclarations (", ".intercalate rule.selectors) rule.declarations

theorem diagnostics_addRule (table : Table) (rule : Css.Rule) :
    (addRule table rule).diagnostics = (ofRule rule).diagnostics := by
  rw [addRule, Reported.diagnostics_bind, Reported.diagnostics_pure, List.append_nil, ofRule]

/-- The reports of a rule name all of its selectors. -/
theorem source_of_mem_ofRule {rule : Css.Rule} {diagnostic : Diagnostic}
    (member : diagnostic ∈ (ofRule rule).diagnostics) :
    diagnostic.source = ", ".intercalate rule.selectors := by
  rw [ofRule, diagnostics_ofDeclarations] at member
  obtain ⟨declaration, -, reported⟩ := List.mem_filterMap.mp member
  obtain ⟨-, same⟩ := Option.ite_none_right_eq_some.mp reported
  obtain rfl := Option.some.inj same
  rfl

section

variable {text : String} {rules : List Css.Rule}

/-- **A style sheet gives its selectors the styles of their rules**, one after another. -/
theorem value_ofText (read : Css.parseRules text = .ok rules) :
    (Table.ofText text).value =
      Table.ofList ((namings rules).map fun naming => (naming.1, (ofRule naming.2).value)) := by
  rw [Table.ofText, read, Table.ofList, List.foldl_map, namings, List.foldl_flatMap]
  show (rules.foldlM addRule Table.empty).value = _
  rw [Reported.value_foldlM]
  congr 1
  funext table rule
  rw [List.foldl_map]
  rfl

/-- **Every rule is reported once**, however many selectors it has. -/
theorem diagnostics_ofText (read : Css.parseRules text = .ok rules) :
    (Table.ofText text).diagnostics = rules.flatMap fun rule => (ofRule rule).diagnostics := by
  rw [Table.ofText, read]
  exact Reported.diagnostics_foldlM diagnostics_addRule rules Table.empty

end

/-- **A style sheet that cannot be read gives nothing but a report of it.** -/
theorem ofText_of_error {text : String} {fault : Css.Fault}
    (refused : Css.parseRules text = .error fault) :
    Table.ofText text = ⟨Table.empty, [.parseFailure "style" text fault.message]⟩ := by
  rw [Table.ofText, refused]
  rfl

/-- A selector has the style of the last rule that names it. -/
theorem get?_ofText_eq_some_iff {text : String} {rules : List Css.Rule}
    (read : Css.parseRules text = .ok rules) {selector : String} {style : Map} :
    (Table.ofText text).value.get? selector = some style ↔
      ∃ before rule after, namings rules = before ++ (selector, rule) :: after ∧
        (∀ later ∈ after, later.1 ≠ selector) ∧ (ofRule rule).value = style := by
  rw [value_ofText read, Table.get?_ofList, ← List.map_reverse, List.findSome?_map,
    findSome?_reverse_eq_some_iff]
  simp only [Function.comp_apply]
  constructor
  · rintro ⟨before, ⟨named, rule⟩, after, split, found, unnamed⟩
    obtain ⟨rfl, same⟩ := Option.ite_none_right_eq_some.mp found
    refine ⟨before, rule, after, split, fun later member equal => ?_, Option.some.inj same⟩
    have missing := unnamed later member
    rw [if_pos equal.symm] at missing
    cases missing
  · rintro ⟨before, rule, after, split, unnamed, same⟩
    refine ⟨before, (selector, rule), after, split, ?_, fun later member => ?_⟩
    · rw [if_pos rfl, same]
    · exact if_neg (unnamed later member).symm

/-- **What a style sheet gives**: one report if it cannot be read, and else the table of its rules,
of which the last one for a selector counts, and their reports. -/
theorem ofText_sheet (text : String) :
    match Css.parseRules text with
    | .error fault => Table.ofText text = ⟨Table.empty, [.parseFailure "style" text fault.message]⟩
    | .ok rules =>
      let table := (Table.ofText text).value
      (table.entries.map Prod.fst).Nodup ∧
        IsFirsts (table.entries.map Prod.fst) ((namings rules).map Prod.fst) ∧
        (∀ selector style, (selector, style) ∈ table.entries ↔
          ∃ before rule after, namings rules = before ++ (selector, rule) :: after ∧
            (∀ later ∈ after, later.1 ≠ selector) ∧ (ofRule rule).value = style) ∧
        (∀ selector style,
          table.get? selector = some style ↔ (selector, style) ∈ table.entries) ∧
        (Table.ofText text).diagnostics =
          (rules.flatMap fun rule => (ofRule rule).diagnostics) ∧
        ∀ rule ∈ rules, ∀ diagnostic ∈ (ofRule rule).diagnostics,
          diagnostic.source = ", ".intercalate rule.selectors := by
  cases read : Css.parseRules text with
  | error fault => exact ofText_of_error read
  | ok rules =>
    have firsts : IsFirsts (Table.ofText text).value.keys ((namings rules).map Prod.fst) := by
      have listed := Table.isFirsts_keys_ofList
        ((namings rules).map fun naming => (naming.1, (ofRule naming.2).value))
      rw [← value_ofText read, List.map_map] at listed
      exact listed
    have entries (selector : String) (style : Map) :
        (selector, style) ∈ (Table.ofText text).value.entries ↔
          (Table.ofText text).value.get? selector = some style :=
      Keyed.mem_entries_iff firsts.nodup
    exact ⟨firsts.nodup, firsts,
      fun selector style => (entries selector style).trans (get?_ofText_eq_some_iff read),
      fun selector style => (entries selector style).symm, diagnostics_ofText read,
      fun _ _ _ => source_of_mem_ofRule⟩

end PagedHtml.Style
