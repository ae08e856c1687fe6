/-
**The shape of an outline.**

The numbers of an outline form a tree in which the outermost text or element has the number `0`,
every other number is in exactly one list of children, numbers grow downwards and from sibling to
sibling, an element knows the element in whose list it is, and no number is out of reach
(`Outline.IsTree`).

* `isTree_outline`: the outline of every content has this shape.
-/

import PagedHtml.Proofs.Content.Places
import Mathlib.Data.List.Induction
import Mathlib.Logic.Relation

namespace PagedHtml

/-- **The numbers of an outline form a tree.** -/
structure Outline.IsTree (outline : Outline) : Prop where
  /-- There is an outermost text or element, which has the number `0`. -/
  root_lt : Outline.root < outline.size
  root_alone : outline.parent? Outline.root = none
  /-- Children have larger numbers than the element around them, and grow from left to right. -/
  increasing : ∀ id, (id :: outline.children id).Pairwise (· < ·)
  child_lt : ∀ id, ∀ child ∈ outline.children id, child < outline.size
  /-- Every other number is in one list of children, once. -/
  one_place : ∀ id < outline.size, id ≠ Outline.root →
    ∃! place : Nat × Nat, (outline.children place.1)[place.2]? = some id
  /-- The element around an element is the one that lists it. -/
  parent_iff : ∀ id data, outline.element? id = some data →
    ∀ parent, outline.parent? id = some parent ↔ id ∈ outline.children parent
  reachable : ∀ id < outline.size,
    Relation.ReflTransGen (fun above below => below ∈ outline.children above) Outline.root id

namespace Content

/-! ### Looking at the numbers of places -/

theorem size_outline (content : Content) : content.outline.size = content.size := by
  simp [outline, Outline.size, length_entries]

section

variable {content found : Content} {place : List Nat}

theorem get?_outline (here : content.at? place = some found) :
    content.outline.get? (content.number place) =
      some (found.head (if place = [] then none else some (content.number place.dropLast))
        (content.number place)) := by
  have listed := getElem?_entries here none 0
  rw [Nat.zero_add, Nat.zero_add] at listed
  simpa [outline, Outline.get?] using listed

theorem element?_outline (here : content.at? place = some found) :
    content.outline.element? (content.number place) = found.element? := by
  rw [Outline.element?, get?_outline here]
  cases found <;> rfl

theorem parent?_outline (here : content.at? place = some found) :
    content.outline.parent? (content.number place) =
      if found.element?.isNone ∨ place = [] then none
      else some (content.number place.dropLast) := by
  rw [Outline.parent?, get?_outline here]
  cases found with
  | text => rfl
  | element data children => simp [head, element?]

/-- The children of the element at a place have the numbers behind its own, in order. -/
theorem children_outline {data : StyledElement} {children : List Content}
    (here : content.at? place = some (element data children)) :
    content.outline.children (content.number place) =
      siblingIds (content.number place + 1) children := by
  rw [Outline.children, get?_outline here]
  rfl

/-- The children of what stands at a place have the numbers of the places right below. -/
theorem getElem?_children_outline (here : content.at? place = some found) (step : Nat) :
    (content.outline.children (content.number place))[step]? =
      (content.at? (place ++ [step])).map fun _ => content.number (place ++ [step]) := by
  rw [Outline.children, get?_outline here, at?_append here, number_append here, at?_cons]
  cases found with
  | text => rfl
  | element data children =>
    simp only [head, getElem?_siblingIds, Content.children]
    cases taken : children[step]? with
    | none => rfl
    | some child =>
      rw [number_cons taken, number_nil, Nat.add_zero, ← Nat.add_assoc, ← Nat.add_assoc]
      simp [Content.children]

end

/-- Numbers beyond the outline have no children. -/
theorem children_outline_of_ge {content : Content} {id : Nat} (beyond : content.size ≤ id) :
    content.outline.children id = [] := by
  have outside : content.outline.get? id = none := by
    simpa [Outline.get?, outline, length_entries] using beyond
  rw [Outline.children, outside]

/-- A number is in the list of children of another one just if its place is right below. -/
theorem getElem?_children_outline_eq_some {content : Content} {above step id : Nat} :
    (content.outline.children above)[step]? = some id ↔
      ∃ place found, content.at? (place ++ [step]) = some found ∧
        content.number place = above ∧ content.number (place ++ [step]) = id := by
  constructor
  · intro listed
    have inside : above < content.size := by
      by_contra beyond
      rw [children_outline_of_ge (Nat.le_of_not_lt beyond)] at listed
      simp at listed
    obtain ⟨place, upper, here, rfl⟩ := exists_place content inside
    rw [getElem?_children_outline here] at listed
    obtain ⟨found, below, equal⟩ := Option.map_eq_some_iff.mp listed
    exact ⟨place, found, below, rfl, equal⟩
  · rintro ⟨place, found, below, rfl, rfl⟩
    obtain ⟨upper, here, -⟩ := at?_of_append below
    rw [getElem?_children_outline here, below]
    rfl

theorem mem_children_outline {content : Content} {above id : Nat} :
    id ∈ content.outline.children above ↔
      ∃ place step found, content.at? (place ++ [step]) = some found ∧
        content.number place = above ∧ content.number (place ++ [step]) = id := by
  rw [List.mem_iff_getElem?]
  constructor
  · rintro ⟨step, listed⟩
    obtain ⟨place, found, below, upper, equal⟩ := getElem?_children_outline_eq_some.mp listed
    exact ⟨place, step, found, below, upper, equal⟩
  · rintro ⟨place, step, found, below, upper, equal⟩
    exact ⟨step, getElem?_children_outline_eq_some.mpr ⟨place, found, below, upper, equal⟩⟩

/-! ### The tree -/

theorem le_of_mem_siblingIds {id least : Nat} {siblings : List Content}
    (listed : id ∈ siblingIds least siblings) : least ≤ id := by
  induction siblings generalizing least with
  | nil => simp [siblingIds] at listed
  | cons first rest ih =>
    rcases List.mem_cons.mp listed with rfl | later
    · exact Nat.le_refl _
    · exact Nat.le_trans (Nat.le_add_right least first.size) (ih later)

theorem pairwise_siblingIds (id : Nat) (siblings : List Content) :
    (siblingIds id siblings).Pairwise (· < ·) := by
  induction siblings generalizing id with
  | nil => exact List.Pairwise.nil
  | cons first rest ih =>
    refine List.Pairwise.cons (fun later listed => ?_) (ih _)
    have bound := le_of_mem_siblingIds listed
    have positive := size_pos first
    omega

theorem pairwise_children_outline (content : Content) (id : Nat) :
    (id :: content.outline.children id).Pairwise (· < ·) := by
  by_cases inside : id < content.size
  · obtain ⟨place, found, here, rfl⟩ := exists_place content inside
    rw [Outline.children, get?_outline here]
    cases found with
    | text => exact List.pairwise_singleton _ _
    | element data children =>
      refine List.Pairwise.cons (fun child listed => ?_) (pairwise_siblingIds _ _)
      exact le_of_mem_siblingIds listed
  · rw [children_outline_of_ge (Nat.le_of_not_lt inside)]
    exact List.pairwise_singleton _ _

/-- A place whose number is not `0` is right below another one. -/
theorem exists_above {content : Content} {id : Nat} (inside : id < content.size) (below : id ≠ 0) :
    ∃ place step found, content.at? (place ++ [step]) = some found ∧
      content.number (place ++ [step]) = id := by
  obtain ⟨place, found, here, rfl⟩ := exists_place content inside
  have nonempty : place ≠ [] := by
    rintro rfl
    exact below (number_nil content)
  have split : place.dropLast ++ [place.getLast nonempty] = place :=
    List.dropLast_append_getLast nonempty
  exact ⟨place.dropLast, place.getLast nonempty, found, by rw [split]; exact here, by rw [split]⟩

/-- The walk down from the outermost content comes to every place. -/
theorem reachable_outline {content found : Content} {place : List Nat}
    (here : content.at? place = some found) :
    Relation.ReflTransGen (fun above below => below ∈ content.outline.children above)
      Outline.root (content.number place) := by
  induction place using List.reverseRecOn generalizing found with
  | nil =>
    rw [number_nil]
    exact Relation.ReflTransGen.refl
  | append_singleton place step ih =>
    obtain ⟨above, reached, -⟩ := at?_of_append here
    exact (ih reached).tail (mem_children_outline.mpr ⟨place, step, found, here, rfl, rfl⟩)

/-- **The outline of a content is a tree.** -/
theorem isTree_outline (content : Content) : content.outline.IsTree where
  root_lt := by
    rw [size_outline]
    exact size_pos content
  root_alone := by
    have outermost := parent?_outline (at?_nil content)
    rwa [number_nil, if_pos (Or.inr rfl)] at outermost
  increasing := pairwise_children_outline content
  child_lt id child listed := by
    obtain ⟨place, step, found, below, -, rfl⟩ := mem_children_outline.mp listed
    rw [size_outline]
    exact number_lt_size below
  one_place id inside below := by
    rw [size_outline] at inside
    obtain ⟨place, step, found, here, rfl⟩ := exists_above inside below
    refine ⟨(content.number place, step),
      getElem?_children_outline_eq_some.mpr ⟨place, found, here, rfl, rfl⟩, ?_⟩
    -- A place determines the place above it and the last step.
    rintro ⟨above, other⟩ listed
    obtain ⟨place', found', here', rfl, same⟩ := getElem?_children_outline_eq_some.mp listed
    have equal := number_injective here' here same
    obtain ⟨rfl, last⟩ := List.append_inj' equal rfl
    exact Prod.ext rfl (List.cons.inj last).1
  parent_iff id data known parent := by
    have inside : id < content.size := by
      rw [← size_outline]
      by_contra beyond
      have outside : content.outline.get? id = none := by
        simpa [Outline.get?, Outline.size] using beyond
      rw [Outline.element?, outside] at known
      cases known
    obtain ⟨place, found, here, rfl⟩ := exists_place content inside
    rw [element?_outline here] at known
    rw [parent?_outline here, known, mem_children_outline]
    simp only [Option.isNone_some, Bool.false_eq_true, false_or]
    constructor
    · intro above
      split at above
      · cases above
      · next nonempty =>
        have split : place.dropLast ++ [place.getLast nonempty] = place :=
          List.dropLast_append_getLast nonempty
        refine ⟨place.dropLast, place.getLast nonempty, found, by rw [split]; exact here,
          Option.some.inj above, by rw [split]⟩
    · rintro ⟨upper, step, found', below, rfl, same⟩
      obtain rfl := number_injective below here same
      simp
  reachable id inside := by
    rw [size_outline] at inside
    obtain ⟨place, found, here, rfl⟩ := exists_place content inside
    exact reachable_outline here

end Content

end PagedHtml
