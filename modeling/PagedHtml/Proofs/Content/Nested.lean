/-
**Documents of elements each of which is all that is in the one before.**

Any elements, the outermost first, can be put one into another (`Document.nest`), and under a host
without computed values none of them is hidden and each gets the style of its `style` attribute.
What stands above an element of such a document are the elements before it, so that a chain of
elements that can be built one by one can be had as the chain of a document that is built.

* `ofDocument_nest`: what is built from such a document;
* `above_nested`: what is above an element there.
-/

import PagedHtml.Proofs.Content.Ancestry
import PagedHtml.Proofs.Content.Unfolding

namespace PagedHtml

/-- An element as it is built under a host without computed values. -/
def Element.styled (data : Element) : StyledElement :=
  ⟨Text.lower data.tag, data.attributes, (Content.attributeStyle data).value, 0⟩

/-- The nodes of a document with one element in another, the outermost first. -/
def Document.nest (elements : List Element) : Document :=
  ⟨(⟨.document, none, [1]⟩ :: elements.mapIdx fun place data =>
    ⟨.element data, some place,
      if place + 1 < elements.length then [place + 2] else []⟩).toArray⟩

namespace Content

/-- An element with the next one in it, and so on. -/
def nested (data : StyledElement) : List StyledElement → Content
  | [] => element data []
  | next :: rest => element data [nested next rest]

/-! ### Building -/

theorem behind_nested (data : StyledElement) (rest : List StyledElement)
    (first : data.indexOfType = 0) : (nested data rest).behind [] = nested data rest := by
  cases rest <;>
  · rw [nested, behind]
    congr 1
    rw [StyledElement.mk.injEq]
    exact ⟨rfl, rfl, rfl, first.symm⟩

theorem withComputed_empty (id : Nat) (style : Style.Map) :
    withComputed (some .empty) id style = .ok style := by
  rw [withComputed]
  induction Style.Property.computed with
  | nil => rfl
  | cons property rest ih =>
    rw [List.foldlM_cons]
    exact ih

theorem outcome_elementStyle_empty (id : Nat) (data : Element) :
    (elementStyle (some .empty) id data).outcome = .ok data.styled.style := by
  rw [outcome_elementStyle, withComputed_empty]
  rfl

theorem get?_nest {elements : List Element} {place : Nat} {data : Element}
    (listed : elements[place]? = some data) :
    (Document.nest elements).get? (place + 1) =
      some ⟨.element data, some place,
        if place + 1 < elements.length then [place + 2] else []⟩ := by
  rw [Document.nest, Document.get?, List.getElem?_toArray, List.getElem?_cons_succ,
    List.getElem?_mapIdx, listed]
  rfl

/-- Each element of the document unfolds to itself with those after it one in another. -/
theorem unfolds_nest (before : List Element) {elements after : List Element} {data : Element}
    (split : elements = before ++ data :: after) :
    (Document.nest elements).Unfolds (some .empty) (before.length + 1)
      (nested data.styled (after.map Element.styled)) := by
  have long : elements.length = before.length + 1 + after.length := by
    rw [split, List.length_append, List.length_cons]
    omega
  have listed : elements[before.length]? = some data := by
    rw [split, List.getElem?_append_right (Nat.le_refl _), Nat.sub_self]
    rfl
  have found := get?_nest listed
  induction after generalizing before data with
  | nil =>
    rw [if_neg (by rw [long]; exact Nat.lt_irrefl _)] at found
    refine @Document.Unfolds.element _ _ _ _ _ _ [] found rfl rfl
      (outcome_elementStyle_empty _ data) rfl ?_
    intro place child image listed
    cases listed
  | cons next after ih =>
    rw [if_pos (by rw [long, List.length_cons]; omega)] at found
    have listedNext : elements[(before ++ [data]).length]? = some next := by
      rw [split, List.getElem?_append_right (by simp)]
      simp
    have below := ih (before ++ [data]) (by rw [split]; simp) (by rw [long]; simp; omega)
      listedNext (get?_nest listedNext)
    have image : ∀ (place child : Nat) (image : Content), [(before ++ [data]).length + 1][place]? =
        some child → [nested next.styled (after.map Element.styled)][place]? = some image →
        (Document.nest elements).Unfolds (some .empty) child image := by
      intro place child image listedChild listedImage
      cases place with
      | zero =>
        cases Option.some.inj listedChild
        cases Option.some.inj listedImage
        exact below
      | succ place => cases listedChild
    rw [List.length_append] at image
    have built := @Document.Unfolds.element _ _ _ _ _ _
      [nested next.styled (after.map Element.styled)] found rfl rfl
      (outcome_elementStyle_empty _ data) rfl image
    rw [List.mapIdx_cons, List.mapIdx_nil, List.take_zero, behind_nested _ _ rfl] at built
    exact built

/-- **What is built from elements one in another.** -/
theorem ofDocument_nest (data : Element) (inside : List Element) :
    (ofDocument (Document.nest (data :: inside)) (some .empty) 1).outcome =
      .ok (nested data.styled (inside.map Element.styled)) :=
  ofDocument_eq_ok_iff.mpr (unfolds_nest [] rfl)

/-! ### The outline -/

theorem getElem?_entries_nested {data next : StyledElement} {rest : List StyledElement}
    {place : Nat} (listed : (data :: rest)[place]? = some next) (parent : Option Nat) (id : Nat) :
    ∃ children, ((nested data rest).entries parent id)[place]? =
      some (.element next (if place = 0 then parent else some (id + place - 1)) children) := by
  induction rest generalizing data place parent id with
  | nil =>
    cases place with
    | zero =>
      cases Option.some.inj listed
      exact ⟨_, rfl⟩
    | succ place => cases listed
  | cons first rest ih =>
    cases place with
    | zero =>
      cases Option.some.inj listed
      exact ⟨_, rfl⟩
    | succ place =>
      rw [List.getElem?_cons_succ] at listed
      obtain ⟨children, found⟩ := ih listed (some id) (id + 1)
      refine ⟨children, ?_⟩
      rw [nested, entries, List.getElem?_cons_succ, entriesAll, entriesAll, List.append_nil, found]
      cases place with
      | zero => rfl
      | succ place =>
        rw [if_neg (Nat.succ_ne_zero _), if_neg (Nat.succ_ne_zero _), Nat.add_right_comm]
        rfl

/-- **What is above an element one in another are the elements before it.** -/
theorem above_nested {data next : StyledElement} {rest : List StyledElement} {place : Nat}
    (listed : (data :: rest)[place]? = some next) :
    (nested data rest).outline.element? place = some next ∧
      (nested data rest).outline.above place = ((data :: rest).take place).reverse := by
  induction place generalizing next with
  | zero =>
    obtain ⟨children, found⟩ := getElem?_entries_nested listed none 0
    have entry : (nested data rest).outline.get? 0 = some (.element next none children) := by
      rw [Outline.get?, outline, List.getElem?_toArray, found]
      rfl
    refine ⟨by rw [Outline.element?, entry], ?_⟩
    rw [(isTree_outline _).above_eq, Outline.parent?, entry]
    rfl
  | succ place ih =>
    obtain ⟨inside, -⟩ := List.getElem?_eq_some_iff.mp listed
    have before := List.getElem?_eq_getElem (l := data :: rest) (i := place) (by omega)
    obtain ⟨reached, outer⟩ := ih before
    obtain ⟨children, found⟩ := getElem?_entries_nested listed none 0
    have entry : (nested data rest).outline.get? (place + 1) =
        some (.element next (some place) children) := by
      rw [Outline.get?, outline, List.getElem?_toArray, found, Nat.zero_add]
      rfl
    refine ⟨by rw [Outline.element?, entry], ?_⟩
    have known : (nested data rest).outline.parent? (place + 1) = some place := by
      rw [Outline.parent?, entry]
    rw [(isTree_outline _).above_of_parent? known reached, outer,
      List.take_succ_eq_append_getElem (by omega), List.reverse_append]
    rfl

end Content

end PagedHtml
