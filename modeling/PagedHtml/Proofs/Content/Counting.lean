/-
**An element knows how many siblings with its tag stand before it.**

Contents are counted where they become children, and each child is counted among its own siblings
only: what stands in an element, or around it, does not change the number that it has.

* `indexOfType_of_unfolds`: the number of an element in a content, by induction on the unfolding;
* `indexOfType_outline`: the same by the children that an outline lists. The outermost element has
  the number `0` (`indexOfType_root`).
-/

import PagedHtml.Proofs.Content.Shape
import PagedHtml.Proofs.Content.Unfolding

namespace PagedHtml.Content

variable {document : Document} {computed : Option ComputedStyle} {root : Nat} {content : Content}
  {data : StyledElement}

/-! ### Counted siblings -/

/-- To be counted changes no tag. -/
theorem hasTag_behind (tag : String) (earlier : List Content) (content : Content) :
    hasTag tag (content.behind earlier) = hasTag tag content := by
  cases content <;> rfl

/-- Siblings that are counted have as many elements with a tag before them as they had. -/
theorem countP_take_counted (tag : String) (siblings : List Content) (step : Nat) :
    ((siblings.mapIdx fun place sibling => sibling.behind (siblings.take place)).take step).countP
        (hasTag tag) = (siblings.take step).countP (hasTag tag) := by
  have same : (siblings.mapIdx fun place sibling => sibling.behind (siblings.take place)).map
      (hasTag tag) = siblings.map (hasTag tag) := by
    apply List.ext_getElem?
    intro place
    rw [List.getElem?_map, List.getElem?_mapIdx, List.getElem?_map, Option.map_map]
    exact congrArg (siblings[place]?.map ·) (funext fun sibling => hasTag_behind tag _ sibling)
  have counted (list : List Content) : list.countP (hasTag tag) =
      (list.map (hasTag tag)).countP id := by
    rw [List.countP_map]
    rfl
  rw [counted, counted, List.map_take, List.map_take, same]

/-- A content has the same places as a sibling that is counted. -/
theorem exists_at?_of_behind {earlier : List Content} {place : List Nat} {above : Content}
    (here : (content.behind earlier).at? place = some above) :
    ∃ same, content.at? place = some same ∧ same.children = above.children := by
  cases place with
  | nil =>
    rw [at?_nil] at here
    cases here
    exact ⟨content, at?_nil content, (children_behind earlier content).symm⟩
  | cons step place =>
    rw [at?_cons, children_behind, ← at?_cons] at here
    exact ⟨above, here, rfl⟩

/-- **An element counts the elements with its tag that stand before it** among its siblings. -/
theorem indexOfType_of_unfolds (unfolds : document.Unfolds computed root content)
    {place : List Nat} {above : Content} (here : content.at? place = some above) {step : Nat}
    {children : List Content} (taken : above.children[step]? = some (element data children)) :
    data.indexOfType = (above.children.take step).countP (hasTag data.tag) := by
  induction unfolds generalizing place above with
  | text | comment | hidden =>
    cases place with
    | nil =>
      rw [at?_nil] at here
      cases here
      cases taken
    | cons =>
      obtain ⟨child, found, -⟩ := at?_cons_eq_some.mp here
      cases found
  | @element id node host style images found kind shown styled long each ih =>
    cases place with
    | nil =>
      rw [at?_nil] at here
      cases here
      simp only [Content.children, List.getElem?_mapIdx, Option.map_eq_some_iff] at taken
      obtain ⟨image, -, same⟩ := taken
      rw [Content.children, countP_take_counted]
      cases image with
      | text => cases same
      | element =>
        cases same
        rfl
    | cons next place =>
      obtain ⟨child, listed, below⟩ := at?_cons_eq_some.mp here
      simp only [Content.children, List.getElem?_mapIdx, Option.map_eq_some_iff] at listed
      obtain ⟨image, resulted, rfl⟩ := listed
      have inside : next < node.children.length := by
        rw [← long]
        exact (List.getElem?_eq_some_iff.mp resulted).1
      obtain ⟨same, reached, equal⟩ := exists_at?_of_behind below
      rw [← equal] at taken ⊢
      exact ih next _ image (List.getElem?_eq_getElem inside) resulted reached taken

/-! ### Counting in an outline -/

/-- An outline lists the children of what stands at a place, as far as elements go. -/
theorem map_element?_children_outline {found : Content} {place : List Nat}
    (here : content.at? place = some found) :
    (content.outline.children (content.number place)).map content.outline.element? =
      found.children.map element? := by
  apply List.ext_getElem?
  intro step
  rw [List.getElem?_map, List.getElem?_map, getElem?_children_outline here, at?_append here,
    at?_cons]
  cases taken : found.children[step]? with
  | none => rfl
  | some child =>
    have below : content.at? (place ++ [step]) = some child := by
      rw [at?_append here]
      exact at?_cons_eq_some.mpr ⟨child, taken, at?_nil child⟩
    simp [element?_outline below]

/-- **By number, too, an element counts the elements with its tag before it.** -/
theorem indexOfType_outline (built : (ofDocument document computed root).outcome = .ok content)
    {above step id : Nat} (listed : (content.outline.children above)[step]? = some id)
    (known : content.outline.element? id = some data) :
    data.indexOfType = ((content.outline.children above).take step).countP fun earlier =>
      (content.outline.element? earlier).any fun other => other.tag == data.tag := by
  obtain ⟨place, found, here, rfl, rfl⟩ := getElem?_children_outline_eq_some.mp listed
  obtain ⟨upper, reached, below⟩ := at?_of_append here
  rw [element?_outline here] at known
  obtain ⟨child, taken, same⟩ := at?_cons_eq_some.mp below
  rw [at?_nil] at same
  cases same
  cases found with
  | text => cases known
  | element other children =>
    cases known
    have counted := indexOfType_of_unfolds (ofDocument_eq_ok_iff.mp built) reached taken
    have alike := congrArg
      (fun tags => (tags.take step).countP fun other =>
        other.any fun element => element.tag == data.tag)
      (map_element?_children_outline reached)
    simp only [← List.map_take, List.countP_map] at alike
    exact counted.trans alike.symm

/-- Nothing stands before the outermost element. -/
theorem indexOfType_root (built : (ofDocument document computed root).outcome = .ok content)
    (known : content.outline.element? Outline.root = some data) : data.indexOfType = 0 := by
  have outermost := element?_outline (at?_nil content)
  rw [number_nil, show (0 : Nat) = Outline.root from rfl, known] at outermost
  cases ofDocument_eq_ok_iff.mp built with
  | text | comment | hidden => cases outermost
  | element =>
    cases outermost
    rfl

end PagedHtml.Content
