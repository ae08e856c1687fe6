/-
**What is around a text or an element.**

What is around something can be read off the lists of children: nothing is around the outermost
content, and around a child is the element that lists it, and then what is around that
(`Outline.Enclosed`). The parents that elements know lead up the same way. Texts know no parent, so
that a walk up from a text comes to nothing, whatever the text stands in.

* `IsTree.ascend_of_enclosed`: the walk up from an element, step by step, by induction on what is
  around it;
* `outline_upward`: parents, ancestors and the nearest element with a tag, for all that an outline
  lists.
-/

import PagedHtml.Proofs.Content.Ancestry
import PagedHtml.Proofs.Content.Building

namespace PagedHtml

namespace Outline

/-- **What is around something, by the lists of children**, the nearest first. -/
inductive Enclosed (outline : Outline) : Nat → List Nat → Prop
  | outermost : Enclosed outline root []
  | child {outer inner : Nat} {around : List Nat} : inner ∈ outline.children outer →
      Enclosed outline outer around → Enclosed outline inner (outer :: around)

/-- Whether the element with a number has a tag. -/
def hasTag (outline : Outline) (tag : String) (id : Nat) : Bool :=
  (outline.element? id).any fun data => data.tag == tag

variable {outline : Outline} {id outer inner : Nat} {around : List Nat}

theorem exists_element?_of_mem_children (listed : inner ∈ outline.children outer) :
    ∃ data, outline.element? outer = some data := by
  unfold children at listed
  split at listed
  · next data parent siblings found => exact ⟨data, by rw [element?, found]⟩
  · cases listed

theorem ascend_none (outline : Outline) (limit : Nat) : outline.ascend limit none = [] := by
  cases limit <;> rfl

/-! ### Walking up -/

namespace IsTree

variable (tree : outline.IsTree)
include tree

/-- A child that is an element knows the element that lists it, and a text knows none. -/
theorem parent?_of_mem_children (listed : inner ∈ outline.children outer) :
    outline.parent? inner = if (outline.element? inner).isSome then some outer else none := by
  cases known : outline.element? inner with
  | none => exact parent?_of_element?_eq_none known
  | some data => exact (tree.parent_iff inner data known outer).mpr listed

theorem lt_of_mem_children (listed : inner ∈ outline.children outer) : outer < inner :=
  (List.pairwise_cons.mp (tree.increasing outer)).1 inner listed

/-- A number is listed by one element only. -/
theorem eq_of_mem_children {other : Nat} (listed : inner ∈ outline.children outer)
    (also : inner ∈ outline.children other) : outer = other := by
  have below : inner ≠ root := Nat.ne_of_gt (Nat.zero_lt_of_lt (tree.lt_of_mem_children listed))
  obtain ⟨place, -, alone⟩ := tree.one_place inner (tree.child_lt outer inner listed) below
  obtain ⟨step, here⟩ := List.mem_iff_getElem?.mp listed
  obtain ⟨next, there⟩ := List.mem_iff_getElem?.mp also
  have same := (alone (outer, step) here).trans (alone (other, next) there).symm
  exact (Prod.mk.inj same).1

theorem enclosed_unique {others : List Nat} (enclosed : outline.Enclosed id around)
    (also : outline.Enclosed id others) : others = around := by
  induction enclosed generalizing others with
  | outermost =>
    cases also with
    | outermost => rfl
    | child listed => exact absurd (tree.lt_of_mem_children listed) (Nat.not_lt_zero _)
  | child listed _ ih =>
    cases also with
    | outermost => exact absurd (tree.lt_of_mem_children listed) (Nat.not_lt_zero _)
    | child again further =>
      obtain rfl := tree.eq_of_mem_children listed again
      rw [ih further]

/-- The walk down to a number passes what is around it. -/
theorem exists_enclosed (inside : id < outline.size) : ∃ around, outline.Enclosed id around := by
  have reached := tree.reachable id inside
  clear inside
  induction reached with
  | refl => exact ⟨[], .outermost⟩
  | tail _ listed ih =>
    obtain ⟨around, enclosed⟩ := ih
    exact ⟨_, .child listed enclosed⟩

/-- There are no more elements around something than there are numbers before it. -/
theorem length_le_of_enclosed (enclosed : outline.Enclosed id around) : around.length ≤ id := by
  induction enclosed with
  | outermost => exact Nat.zero_le _
  | child listed _ ih =>
    have larger := tree.lt_of_mem_children listed
    rw [List.length_cons]
    omega

/-- **The walk up from an element comes to what is around it**, and ends there. -/
theorem ascend_of_enclosed {data : StyledElement} (enclosed : outline.Enclosed id around)
    (known : outline.element? id = some data) (limit : Nat) :
    outline.ascend limit (outline.parent? id) = around.take limit := by
  induction enclosed generalizing data limit with
  | outermost => rw [tree.root_alone, ascend_none, List.take_nil]
  | @child outer inner around listed _ ih =>
    rw [tree.parent?_of_mem_children listed, known]
    cases limit with
    | zero => rfl
    | succ limit =>
      obtain ⟨upper, isElement⟩ := exists_element?_of_mem_children listed
      show outer :: outline.ascend limit (outline.parent? outer) = _
      rw [ih isElement, List.take_succ_cons]

theorem ancestors_of_enclosed {data : StyledElement} (enclosed : outline.Enclosed id around)
    (known : outline.element? id = some data) : outline.ancestors id = around := by
  have inside := lt_size_of_element? known
  have short := tree.length_le_of_enclosed enclosed
  rw [ancestors, tree.ascend_of_enclosed enclosed known]
  exact List.take_of_length_le (by omega)

end IsTree

/-! ### The nearest element with a tag -/

theorem closest?_eq (outline : Outline) (id : Nat) (tag : String) :
    outline.closest? id tag = (id :: outline.ancestors id).find? (outline.hasTag tag) := rfl

theorem closest?_eq_some_iff {tag : String} {nearest : Nat} :
    outline.closest? id tag = some nearest ↔
      outline.hasTag tag nearest = true ∧ ∃ nearer further,
        id :: outline.ancestors id = nearer ++ nearest :: further ∧
        ∀ other ∈ nearer, outline.hasTag tag other = false := by
  rw [closest?_eq, List.find?_eq_some_iff_append]
  simp only [Bool.not_eq_true']

theorem closest?_eq_none_iff {tag : String} :
    outline.closest? id tag = none ↔
      ∀ other ∈ id :: outline.ancestors id, outline.hasTag tag other = false := by
  rw [closest?_eq, List.find?_eq_none]
  simp only [Bool.not_eq_true]

end Outline

namespace Content

open Outline (Enclosed)

/-- **Going up in an outline**: a child that is an element knows the element that lists it. From an
element the walk up comes to what is around it, and the nearest element with a tag is the first of
these, the element itself included. A text knows nothing of what is around it. -/
theorem outline_upward (content : Content) :
    (∀ outer inner, inner ∈ content.outline.children outer → content.outline.parent? inner =
      if (content.outline.element? inner).isSome then some outer else none) ∧
    ∀ id < content.outline.size, ∃ around,
      (∀ others, content.outline.Enclosed id others ↔ others = around) ∧
      match content.outline.element? id with
      | some _ =>
        (∀ limit, content.outline.ascend limit (content.outline.parent? id) =
          around.take limit) ∧
        content.outline.ancestors id = around ∧
        ∀ tag,
          (∀ nearest, content.outline.closest? id tag = some nearest ↔
            content.outline.hasTag tag nearest = true ∧ ∃ nearer further,
              id :: around = nearer ++ nearest :: further ∧
              ∀ other ∈ nearer, content.outline.hasTag tag other = false) ∧
          (content.outline.closest? id tag = none ↔
            ∀ other ∈ id :: around, content.outline.hasTag tag other = false)
      | none =>
        (∀ limit, content.outline.ascend limit (content.outline.parent? id) = []) ∧
        content.outline.ancestors id = [] ∧
        ∀ tag, content.outline.closest? id tag = none := by
  have tree := content.isTree_outline
  refine ⟨fun _ _ => tree.parent?_of_mem_children, fun id inside => ?_⟩
  obtain ⟨around, enclosed⟩ := tree.exists_enclosed inside
  refine ⟨around, fun others => ⟨tree.enclosed_unique enclosed, ?_⟩, ?_⟩
  · rintro rfl
    exact enclosed
  · cases known : content.outline.element? id with
    | some data =>
      have ancestors := tree.ancestors_of_enclosed enclosed known
      refine ⟨tree.ascend_of_enclosed enclosed known, ancestors, fun tag => ?_⟩
      rw [← ancestors]
      exact ⟨fun nearest => Outline.closest?_eq_some_iff, Outline.closest?_eq_none_iff⟩
    | none =>
      have alone := Outline.parent?_of_element?_eq_none known
      have nothing : content.outline.ancestors id = [] := by
        rw [Outline.ancestors, alone, Outline.ascend_none]
      refine ⟨fun limit => by rw [alone, Outline.ascend_none], nothing, fun tag => ?_⟩
      rw [Outline.closest?_eq_none_iff, nothing]
      intro other same
      rw [List.mem_singleton.mp same, Outline.hasTag, known]
      rfl

/-- Of the items of a list in a list, the inner one has the inner list nearest to it. -/
theorem outline_upward_item :
    let item : StyledElement := ⟨"li", .empty, .empty, 0⟩
    let list : StyledElement := ⟨"ol", .empty, .empty, 0⟩
    let content : Content := .element list [.element item [.element list [.element item []]]]
    3 < content.outline.size ∧ content.outline.ancestors 3 = [2, 1, 0] ∧
      content.outline.closest? 3 "ol" = some 2 ∧ content.outline.closest? 3 "ul" = none := by
  intro item list content
  have inside : 3 < content.outline.size := by decide
  obtain ⟨around, enclosed, -, ancestors, nearest⟩ := content.outline_upward.2 3 inside
  have around_eq : [2, 1, 0] = around := (enclosed _).mp
    (.child (by decide) (.child (by decide) (.child (by decide) .outermost)))
  subst around_eq
  refine ⟨inside, ancestors, ?_, ?_⟩
  · exact ((nearest "ol").1 2).mpr ⟨by decide, [3], [1, 0], rfl, by decide⟩
  · exact (nearest "ul").2.mpr (by decide)

/-- **A text knows nothing of the paragraph that it stands in.** -/
theorem parent?_text_in_paragraph :
    let document : Document := ⟨#[⟨.document, none, [1]⟩, ⟨.element ⟨"p", .empty⟩, some 0, [2]⟩,
      ⟨.text "x", some 1, []⟩]⟩
    let content : Content := .element ⟨"p", .empty, .empty, 0⟩ [.text "x"]
    (ofDocument document none 1).outcome = .ok content ∧
      1 ∈ content.outline.children 0 ∧ content.outline.Enclosed 1 [0] ∧
      content.outline.parent? 1 ≠ some 0 ∧ content.outline.ancestors 1 ≠ [0] ∧
      content.outline.closest? 1 "p" ≠ some 0 := by
  intro document content
  have listed : 1 ∈ content.outline.children 0 := by decide
  exact ⟨rfl, listed, .child listed .outermost, by decide, by decide, by decide⟩

end Content

end PagedHtml
