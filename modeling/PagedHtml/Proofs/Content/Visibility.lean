/-
**A `style` attribute is read twice: for what it hides, and for what it sets.**

Without a host that computes styles, an element is left out where the last declaration of its
`style` attribute that is named `display` has the value `none`. The style that the same attribute
gives looks at the text without the blanks around it, passes over declarations without a value, and
takes a name for `display` that has hyphens, low lines or points behind the word.

* `pruned_iff`, `display_eq_none_iff`: what each of the readings depends on;
* `pruned_and_display_eq_none_iff`: both, and that they agree unless they see different declarations
  for `display`.
-/

import PagedHtml.Proofs.Content.Unfolding
import PagedHtml.Proofs.Style.Declared

namespace PagedHtml

namespace Css

/-- The declarations of a text; a text that cannot be read has none. -/
def declared (text : String) : List Declaration := (parseDeclarations text).toOption.getD []

namespace Declaration

/-- **That a declaration is the last one of its kind.** -/
def IsLast (kind : Declaration → Prop) (declarations : List Declaration) (last : Declaration) :
    Prop :=
  ∃ before after, declarations = before ++ last :: after ∧ kind last ∧
    ∀ later ∈ after, ¬ kind later

/-- That the name of a declaration is `display`, in any letter case. -/
def NamesDisplay (declaration : Declaration) : Prop := Text.lower declaration.name = "display"

instance : DecidablePred NamesDisplay :=
  fun declaration => inferInstanceAs (Decidable (Text.lower declaration.name = "display"))

/-- That the name of a declaration is `display` with nothing but hyphens, low lines and points
behind it, in any letter case. -/
def SpellsDisplay (declaration : Declaration) : Prop :=
  ∃ marks, (∀ c ∈ marks, Style.IsMark c) ∧
    (Text.lower declaration.name).toList = "display".toList ++ marks

/-- That a declaration sets the display: its name spells it, and it has a value. -/
def SetsDisplay (declaration : Declaration) : Prop :=
  declaration.valueText ≠ "" ∧ declaration.SpellsDisplay

theorem NamesDisplay.spells {declaration : Declaration} (named : declaration.NamesDisplay) :
    declaration.SpellsDisplay :=
  ⟨[], nofun, congrArg String.toList named⟩

/-- The last one of a kind is the last one of any kind that the same declarations are of. -/
theorem IsLast.of_iff {kind other : Declaration → Prop} {declarations : List Declaration}
    {last : Declaration} (isLast : IsLast kind declarations last)
    (same : ∀ declaration ∈ declarations, kind declaration ↔ other declaration) :
    IsLast other declarations last := by
  obtain ⟨before, after, rfl, isKind, rest⟩ := isLast
  refine ⟨before, after, rfl, (same last (by simp)).mp isKind, fun later member isOther => ?_⟩
  exact rest later member ((same later (by simp [member])).mpr isOther)

/-- What is found first from the end, where it is found at the declarations of a kind, is found at
the last one of the kind. -/
theorem findSome?_reverse_iff_isLast {β : Type} {kind holds : Declaration → Prop}
    {find : Declaration → Option β} {b : β} {declarations : List Declaration}
    (isSome : ∀ declaration, find declaration = some b ↔ kind declaration ∧ holds declaration)
    (isNone : ∀ declaration, find declaration = none ↔ ¬ kind declaration) :
    declarations.reverse.findSome? find = some b ↔
      ∃ last, IsLast kind declarations last ∧ holds last := by
  simp only [findSome?_reverse_eq_some_iff, isSome, isNone]
  constructor
  · rintro ⟨before, last, after, split, ⟨isKind, here⟩, rest⟩
    exact ⟨last, ⟨before, after, split, isKind, rest⟩, here⟩
  · rintro ⟨last, ⟨before, after, split, isKind, rest⟩, here⟩
    exact ⟨before, last, after, split, ⟨isKind, here⟩, rest⟩

end Declaration

end Css

open Css (Declaration declared)

namespace Content

/-! ### What hides -/

/-- **Declarations hide where the last one named `display` has the value `none`.** -/
theorem hides_iff {declarations : List Declaration} :
    hides declarations = true ↔
      ∃ last, Declaration.IsLast Declaration.NamesDisplay declarations last ∧
        last.valueText = "none" := by
  have named : ∀ declaration : Declaration,
      Text.equalsIgnoringCase declaration.name "display" = true ↔ declaration.NamesDisplay := by
    intro declaration
    have small : Text.lower "display" = "display" := by decide
    rw [Text.equalsIgnoringCase_iff, small, Declaration.NamesDisplay]
  have isSome : ∀ last declaration : Declaration,
      Option.guard (fun declaration => Text.equalsIgnoringCase declaration.name "display")
        declaration = some last ↔ declaration.NamesDisplay ∧ declaration = last := by
    intro last declaration
    rw [Option.guard_eq_some_iff, named, and_comm]
  have isNone : ∀ declaration : Declaration,
      Option.guard (fun declaration => Text.equalsIgnoringCase declaration.name "display")
        declaration = none ↔ ¬ declaration.NamesDisplay := by
    intro declaration
    rw [Option.guard_eq_none_iff, ← Bool.not_eq_true, named]
  rw [hides, List.find?_eq_findSome?_guard, Option.any_eq_true]
  refine exists_congr fun last => ?_
  rw [beq_iff_eq, Declaration.findSome?_reverse_iff_isLast (isSome last) isNone]
  simp

theorem attributeHides_iff {text : String} :
    attributeHides text = true ↔
      ∃ last, Declaration.IsLast Declaration.NamesDisplay (declared text) last ∧
        last.valueText = "none" := by
  rw [attributeHides, declared]
  cases Css.parseDeclarations text with
  | ok declarations => exact hides_iff
  | error fault =>
    refine iff_of_false nofun ?_
    rintro ⟨last, ⟨before, after, split, -⟩, -⟩
    cases before <;> cases split

variable {document : Document} {id : Nat} {host : Element} {text : String}

/-- An element becomes an empty text just if its `style` attribute hides it. -/
theorem ofDocument_eq_blank_iff (isElement : document.element? id = some host)
    (styled : host.attributes.get? "style" = some text) :
    (ofDocument document none id).outcome = .ok (.text "") ↔ attributeHides text = true := by
  obtain ⟨node, found, kind⟩ := Document.element?_eq_some_iff.mp isElement
  have hidden : isHidden none id host = attributeHides text := by
    rw [isHidden, styled]
    rfl
  rw [ofDocument_eq_ok_iff, ← hidden]
  refine ⟨fun unfolds => ?_, .hidden found kind⟩
  cases unfolds with
  | text here other | comment here other =>
    obtain rfl := Option.some.inj (found.symm.trans here)
    cases kind.symm.trans other
  | hidden here other hidden =>
    obtain rfl := Option.some.inj (found.symm.trans here)
    cases kind.symm.trans other
    exact hidden

/-- **An element is left out where the last `display` of its `style` attribute is `none`.** -/
theorem pruned_iff (isElement : document.element? id = some host)
    (styled : host.attributes.get? "style" = some text) :
    (ofDocument document none id).outcome = .ok (.text "") ↔
      ∃ last, Declaration.IsLast Declaration.NamesDisplay (declared text) last ∧
        last.valueText = "none" := by
  rw [ofDocument_eq_blank_iff isElement styled, attributeHides_iff]

/-! ### What is set -/

theorem isLower_display : ∀ c ∈ Style.Property.display.name.toList, c.isLower = true := by
  simp [Style.Property.name]

theorem sets?_display_eq_some_iff {declaration : Declaration} {word : String} :
    Style.sets? .display declaration = some (.text word) ↔
      declaration.SetsDisplay ∧ declaration.valueText = word := by
  rw [Style.sets?_eq_some_iff, Style.resolve?_eq_some_iff isLower_display]
  rfl

theorem sets?_display_eq_none_iff {declaration : Declaration} :
    Style.sets? .display declaration = none ↔ ¬ declaration.SetsDisplay := by
  rw [Style.sets?_eq_none_iff, Style.resolve?_eq_some_iff isLower_display]
  rfl

/-- **The style of an attribute has the display `none` where the last declaration that sets the
display has this value.** -/
theorem display_eq_none_iff (text tag : String) :
    (Style.Map.ofAttribute text tag).value.get? .display = some (.text "none") ↔
      ∃ last, Declaration.IsLast Declaration.SetsDisplay (declared (Text.trim text)) last ∧
        last.valueText = "none" := by
  rw [Style.Map.ofAttribute, declared]
  cases Css.parseDeclarations (Text.trim text) with
  | ok declarations =>
    simp only [Style.get?_ofDeclarations]
    exact Declaration.findSome?_reverse_iff_isLast (fun _ => sets?_display_eq_some_iff)
      fun _ => sets?_display_eq_none_iff
  | error fault =>
    refine iff_of_false nofun ?_
    rintro ⟨last, ⟨before, after, split, -⟩, -⟩
    cases before <;> cases split

/-! ### Both readings -/

/-- Where all that spells `display` is named so and has a value, the kinds are the same. -/
theorem namesDisplay_iff_setsDisplay {declarations : List Declaration}
    (plain : ∀ declaration ∈ declarations, declaration.SpellsDisplay →
      declaration.NamesDisplay ∧ declaration.valueText ≠ "") :
    ∀ declaration ∈ declarations, declaration.NamesDisplay ↔ declaration.SetsDisplay := by
  intro declaration member
  constructor
  · intro named
    exact ⟨(plain declaration member named.spells).2, named.spells⟩
  · rintro ⟨-, spells⟩
    exact (plain declaration member spells).1

/-- **The two readings of a `style` attribute**, and that an element is left out just if its style
has the display `none`, as long as the blanks around the text do not count and all that spells
`display` is named so and has a value. -/
theorem pruned_and_display_eq_none_iff (isElement : document.element? id = some host)
    (styled : host.attributes.get? "style" = some text) :
    ((ofDocument document none id).outcome = .ok (.text "") ↔
      ∃ last, Declaration.IsLast Declaration.NamesDisplay (declared text) last ∧
        last.valueText = "none") ∧
    ((Style.Map.ofAttribute text (Text.lower host.tag)).value.get? .display =
        some (.text "none") ↔
      ∃ last, Declaration.IsLast Declaration.SetsDisplay (declared (Text.trim text)) last ∧
        last.valueText = "none") ∧
    (declared (Text.trim text) = declared text →
      (∀ declaration ∈ declared text, declaration.SpellsDisplay →
        declaration.NamesDisplay ∧ declaration.valueText ≠ "") →
      ((ofDocument document none id).outcome = .ok (.text "") ↔
        (Style.Map.ofAttribute text (Text.lower host.tag)).value.get? .display =
          some (.text "none"))) := by
  refine ⟨pruned_iff isElement styled, display_eq_none_iff text _, fun trimmed plain => ?_⟩
  have same := namesDisplay_iff_setsDisplay plain
  rw [pruned_iff isElement styled, display_eq_none_iff, trimmed]
  constructor
  · rintro ⟨last, isLast, none⟩
    exact ⟨last, isLast.of_iff same, none⟩
  · rintro ⟨last, isLast, none⟩
    exact ⟨last, isLast.of_iff fun declaration member => (same declaration member).symm, none⟩

/-- A `display` in capitals, behind another property, hides the element and is set. -/
theorem pruned_display_capitals :
    let text := "color: red; DISPLAY: none"
    let host : Element := ⟨"p", .ofList [("style", text)]⟩
    let document : Document := ⟨#[⟨.document, none, [1]⟩, ⟨.element host, some 0, []⟩]⟩
    (ofDocument document none 1).outcome = .ok (.text "") ∧
      (Style.Map.ofAttribute text "p").value.get? .display = some (.text "none") := by
  intro text host document
  have trimmed : Text.trim text = text := by decide +kernel
  have plain : ∀ declaration ∈ declared text,
      declaration.SpellsDisplay → declaration.NamesDisplay ∧ declaration.valueText ≠ "" := by
    have either : ∀ declaration ∈ declared text, (declaration.NamesDisplay ∧
        declaration.valueText ≠ "") ∨ declaration.name = "color" := by decide +kernel
    rintro declaration member ⟨marks, -, spelt⟩
    -- The name of a color does not start as `display` does.
    refine (either declaration member).resolve_right fun named => ?_
    rw [named] at spelt
    cases spelt
  have set : (Style.Map.ofAttribute text "p").value.get? .display = some (.text "none") := by
    decide +kernel
  have isElement : document.element? 1 = some host := rfl
  have agree := (pruned_and_display_eq_none_iff isElement rfl).2.2 (congrArg declared trimmed) plain
  have tag : Text.lower host.tag = "p" := by decide
  rw [tag] at agree
  exact ⟨agree.mpr set, set⟩

/-- A declaration for `display` without a value takes back what hides the element, and not what the
style has. -/
theorem display_none_not_pruned :
    let text := "display:none;display:"
    let host : Element := ⟨"p", .ofList [("style", text)]⟩
    let document : Document := ⟨#[⟨.document, none, [1]⟩, ⟨.element host, some 0, []⟩]⟩
    (Style.Map.ofAttribute text "p").value.get? .display = some (.text "none") ∧
      (ofDocument document none 1).outcome ≠ .ok (.text "") := by
  intro text host document
  refine ⟨by decide +kernel, fun pruned => ?_⟩
  have isElement : document.element? 1 = some host := rfl
  have hides : attributeHides text = true := (ofDocument_eq_blank_iff isElement rfl).mp pruned
  exact absurd hides (by decide +kernel)

end Content

end PagedHtml
