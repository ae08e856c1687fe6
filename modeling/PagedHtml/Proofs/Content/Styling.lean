/-
**The style of a built element: the values of the host over those of the `style` attribute.**

Each element of a content is built from the element of the document that the same way down leads to
(`exists_element_of_ofDocument`). Its style is that of the `style` attribute, where each property
that the host is asked for and has a value for is set to the translation of this value. A value that
has no translation, which is the word `none`, sets nothing and takes nothing away, so what the
attribute sets is left.

* `overridden_of_withComputed`: what becomes of each property;
* `computed_wins_iff`: the translation of the host's value is what an element ends up with, unless
  the value is `none` and the `style` attribute sets the property.
-/

import Mathlib.Data.String.Basic
import PagedHtml.Proofs.Content.Places
import PagedHtml.Proofs.Content.Unfolding
import PagedHtml.Proofs.Style.Computed

namespace PagedHtml

/-- The node that a way down from another one leads to: at each step, which child to take. -/
def Document.descend? (document : Document) : (id : Nat) → (place : List Nat) → Option Nat
  | id, [] => some id
  | id, step :: place =>
    (document.children id)[step]?.bind fun child => document.descend? child place

namespace Content

/-! ### The element of the document -/

section

variable {document : Document} {computed : Option ComputedStyle}

theorem behind_nil_of_unfolds {id : Nat} {content : Content}
    (unfolds : document.Unfolds computed id content) : content.behind [] = content := by
  cases unfolds <;> rfl

/-- **An element of a content is built from the element that the same way leads to** in the
document, and has its style. -/
theorem exists_element_of_behind {root : Nat} {image : Content} (earlier : List Content)
    {place : List Nat} {data : StyledElement} {children : List Content}
    (unfolds : document.Unfolds computed root image)
    (reached : (image.behind earlier).at? place = some (.element data children)) :
    ∃ id host, document.descend? root place = some id ∧ document.element? id = some host ∧
      (elementStyle computed id host).outcome = .ok data.style := by
  induction place generalizing root image earlier with
  | nil =>
    rw [at?_nil] at reached
    cases unfolds with
    | text | comment | hidden => cases reached
    | @element id node host style images found kind shown styled =>
      obtain ⟨nodeKind, parent, below⟩ := node
      obtain rfl : nodeKind = .element host := kind
      cases reached
      exact ⟨root, host, rfl, by rw [Document.element?, found], styled⟩
  | cons step place ih =>
    rw [at?_cons_eq_some, children_behind] at reached
    obtain ⟨child, taken, further⟩ := reached
    cases unfolds with
    | text | comment | hidden => cases taken
    | @element id node host style images found kind shown styled long each =>
      simp only [Content.children, List.getElem?_mapIdx, Option.map_eq_some_iff] at taken
      obtain ⟨image, resulted, rfl⟩ := taken
      have inside : step < node.children.length := by
        rw [← long]
        exact (List.getElem?_eq_some_iff.mp resulted).1
      have listed := List.getElem?_eq_getElem inside
      obtain ⟨lower, lowerHost, descended, isElement, lowerStyled⟩ :=
        ih _ (each step _ image listed resulted) further
      refine ⟨lower, lowerHost, ?_, isElement, lowerStyled⟩
      rw [Document.descend?, Document.children, found]
      simp only [listed, Option.bind_some, descended]

theorem exists_element_of_ofDocument {root : Nat} {content : Content} {place : List Nat}
    {data : StyledElement} {children : List Content}
    (built : (ofDocument document computed root).outcome = .ok content)
    (reached : content.at? place = some (.element data children)) :
    ∃ id host, document.descend? root place = some id ∧ document.element? id = some host ∧
      (elementStyle computed id host).outcome = .ok data.style := by
  have unfolds := ofDocument_eq_ok_iff.mp built
  rw [← behind_nil_of_unfolds unfolds] at reached
  exact exists_element_of_behind [] unfolds reached

end

/-! ### What becomes of a property -/

/-- **What a property ends up as**, from what it is and from the value of the host, if there is one:
the translation of the value, or what it was if there is no value or no translation. -/
inductive Overridden (property : Style.Property) (before : Option Style.Value) :
    Option String → Option Style.Value → Prop
  | kept : Overridden property before none before
  | computed {raw : String} {translation : Option String} :
      Style.ofComputed property .element raw = .ok translation →
      Overridden property before (some raw) ((translation.map .text).or before)

variable {computed : ComputedStyle} {id : Nat} {style result : Style.Map}

/-- The value that the host has for a property, if there is anything in it. -/
def offered? (computed : ComputedStyle) (id : Nat) (property : Style.Property) : Option String :=
  (computed.value? id property.cssName).filter (· ≠ "")

/-- Asking the host for a property changes this property only. -/
theorem overridden_of_addComputed {property : Style.Property}
    (added : addComputed computed id style property = .ok result) :
    (∀ other, other ≠ property → result.get? other = style.get? other) ∧
      Overridden property (style.get? property) (offered? computed id property)
        (result.get? property) := by
  rw [addComputed] at added
  rw [offered?]
  cases offer : computed.value? id property.cssName with
  | none =>
    rw [offer] at added
    cases added
    exact ⟨fun _ _ => rfl, .kept⟩
  | some raw =>
    rw [offer] at added
    simp only at added
    split at added
    · next empty =>
      cases added
      rw [Option.filter_some_neg (by simpa using empty)]
      exact ⟨fun _ _ => rfl, .kept⟩
    · next filled =>
      rw [Option.filter_some_pos (by simpa using filled)]
      obtain ⟨translation, translated, set⟩ := map_eq_ok_iff.mp added
      cases translation with
      | none =>
        obtain rfl := set
        exact ⟨fun _ _ => rfl, .computed translated⟩
      | some value =>
        obtain rfl := set
        refine ⟨fun other different => if_neg different, ?_⟩
        rw [Style.Map.get?_insert, if_pos rfl]
        exact .computed translated

/-- Asking the host for several properties changes each of them by its own value. -/
theorem overridden_of_foldlM {properties : List Style.Property} (once : properties.Nodup)
    (added : properties.foldlM (addComputed computed id) style = .ok result) :
    (∀ other, other ∉ properties → result.get? other = style.get? other) ∧
      ∀ property ∈ properties, Overridden property (style.get? property)
        (offered? computed id property) (result.get? property) := by
  induction properties generalizing style with
  | nil =>
    cases added
    exact ⟨fun _ _ => rfl, nofun⟩
  | cons first rest ih =>
    obtain ⟨new, onceRest⟩ := List.nodup_cons.mp once
    rw [List.foldlM_cons, bind_eq_ok_iff] at added
    obtain ⟨between, here, later⟩ := added
    obtain ⟨sameHere, overridden⟩ := overridden_of_addComputed here
    obtain ⟨sameLater, overriddenLater⟩ := ih onceRest later
    constructor
    · intro other without
      rw [List.mem_cons, not_or] at without
      rw [sameLater other without.2, sameHere other without.1]
    · intro property member
      rcases List.mem_cons.mp member with rfl | further
      · rw [sameLater property new]
        exact overridden
      · -- A property of the rest is another one, so that the first step has left it as it was.
        have different : property ≠ first := by
          rintro rfl
          exact new further
        rw [← sameHere property different]
        exact overriddenLater property further

/-- The value of the host for a property, if it is one of those that it is asked for. -/
def asked? (computed : ComputedStyle) (id : Nat) (property : Style.Property) : Option String :=
  if property ∈ Style.Property.computed then offered? computed id property else none

/-- **Each property of a style is overridden by the host's value for it**, and by nothing else. -/
theorem overridden_of_withComputed (added : withComputed (some computed) id style = .ok result)
    (property : Style.Property) :
    Overridden property (style.get? property) (asked? computed id property)
      (result.get? property) := by
  have once : Style.Property.computed.Nodup := by decide
  obtain ⟨same, overridden⟩ := overridden_of_foldlM once added
  rw [asked?]
  split
  · next member => exact overridden property member
  · next without =>
    rw [same property without]
    exact .kept

/-- An element has no translation of a value just if the value is the word `none`. -/
theorem ofComputed_element_eq_none_iff {property : Style.Property} {raw : String} :
    Style.ofComputed property .element raw = .ok none ↔ Text.trim raw = "none" := by
  have applies : Style.appliesTo property .element = true := rfl
  rw [Style.ofComputed_eq_none_iff, applies, Text.trim, String.ofList_eq]
  exact or_iff_left nofun

/-! ### The style of a built element -/

/-- **The translation of the host's value is what an element ends up with**, unless the value is
`none` and the `style` attribute sets the property; where the host has no value, and where its value
has no translation, it is what the attribute sets. -/
theorem computed_wins_iff {document : Document} {root : Nat} {content : Content} {place : List Nat}
    {data : StyledElement} {children : List Content}
    (built : (ofDocument document (some computed) root).outcome = .ok content)
    (reached : content.at? place = some (.element data children)) :
    ∃ id host, document.descend? root place = some id ∧ document.element? id = some host ∧
      ∀ property,
        (asked? computed id property = none →
          data.style.get? property = (attributeStyle host).value.get? property) ∧
        ∀ raw, asked? computed id property = some raw → ∃ translation,
          Style.ofComputed property .element raw = .ok translation ∧
          data.style.get? property =
            (translation.map .text).or ((attributeStyle host).value.get? property) ∧
          (data.style.get? property = translation.map .text ↔
            ¬ (Text.trim raw = "none" ∧
              (attributeStyle host).value.get? property ≠ none)) := by
  obtain ⟨id, host, descended, isElement, styled⟩ := exists_element_of_ofDocument built reached
  refine ⟨id, host, descended, isElement, fun property => ?_⟩
  have added : withComputed (some computed) id (attributeStyle host).value = .ok data.style := by
    rw [outcome_elementStyle] at styled
    cases folded : withComputed (some computed) id (attributeStyle host).value with
    | error failure =>
      rw [folded] at styled
      cases styled
    | ok style =>
      rw [folded] at styled
      cases styled
      rfl
  have overridden := overridden_of_withComputed added property
  generalize data.style.get? property = after at overridden ⊢
  generalize asked? computed id property = offer at overridden ⊢
  cases overridden with
  | kept =>
    refine ⟨fun _ => rfl, fun raw offered => ?_⟩
    cases offered
  | @computed raw translation translated =>
    refine ⟨fun nothing => ?_, fun _ same => ?_⟩
    · cases nothing
    cases same
    refine ⟨translation, translated, rfl, ?_⟩
    rw [← ofComputed_element_eq_none_iff, translated]
    cases translation with
    | none => simp [eq_comm]
    | some value => simp

/-- The host's color wins over that of the attribute, whose margin stays. -/
theorem computed_wins_color :
    let host : Element := ⟨"div", .ofList [("style", "color: blue; margin-top: 4px")]⟩
    let document : Document := ⟨#[⟨.document, none, [1]⟩, ⟨.element host, some 0, []⟩]⟩
    ∃ data, (ofDocument document (some (ComputedStyle.empty.set 1 "color" "red")) 1).outcome =
        .ok (.element data []) ∧
      data.style.get? .color = some (.text "red") ∧
      data.style.get? .marginTop = some (.text "4px") := by
  intro host document
  let computed := ComputedStyle.empty.set 1 "color" "red"
  have styled : (elementStyle (some computed) 1 host).outcome.isOk = true := by decide +kernel
  cases outcome : (elementStyle (some computed) 1 host).outcome with
  | error failure =>
    rw [outcome] at styled
    cases styled
  | ok style =>
    have built : (ofDocument document (some computed) 1).outcome = _ :=
      ofDocument_childless rfl rfl outcome
    obtain ⟨id, _, descended, isElement, wins⟩ := computed_wins_iff built (at?_nil _)
    obtain rfl : 1 = id := Option.some.inj descended
    obtain rfl := Option.some.inj isElement
    refine ⟨_, built, ?_, ?_⟩
    · obtain ⟨translation, translated, -, here⟩ := (wins .color).2 "red" (by decide +kernel)
      have same : Style.ofComputed .color .element "red" = .ok (some "red") := by decide +kernel
      rw [same] at translated
      cases translated
      exact here.mpr fun none => absurd none.1 (by decide +kernel)
    · rw [(wins .marginTop).1 (by decide +kernel)]
      decide +kernel

/-- A `none` of the host does not take away what the attribute sets. -/
theorem computed_none_keeps_underline :
    let host : Element := ⟨"p", .ofList [("style", "text-decoration: underline")]⟩
    let computed := ComputedStyle.empty.set 1 "text-decoration" "none"
    let document : Document := ⟨#[⟨.document, none, [1]⟩, ⟨.element host, some 0, []⟩]⟩
    Style.Property.textDecoration ∈ Style.Property.computed ∧
      computed.value? 1 Style.Property.textDecoration.cssName = some "none" ∧
      Style.ofComputed .textDecoration .element "none" = .ok none ∧
      ∃ data, (ofDocument document (some computed) 1).outcome = .ok (.element data []) ∧
        data.style.get? .textDecoration = some (.text "underline") := by
  intro host computed document
  refine ⟨by decide, rfl, by decide +kernel, ?_⟩
  have underlined : ((elementStyle (some computed) 1 host).outcome.toOption.bind
      fun style => style.get? .textDecoration) = some (.text "underline") := by decide +kernel
  cases outcome : (elementStyle (some computed) 1 host).outcome with
  | error failure =>
    rw [outcome] at underlined
    cases underlined
  | ok style =>
    rw [outcome] at underlined
    have built : (ofDocument document (some computed) 1).outcome = _ :=
      ofDocument_childless rfl rfl outcome
    exact ⟨_, built, underlined⟩

end Content

end PagedHtml
