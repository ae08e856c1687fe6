/-
**The items of a numbered list are numbered from one, without a gap.**

An item is numbered among the items of its own list (`Outline.itemMarker`), and any other item gets
a bullet. `Primitive.markers` finds the markers in a primitive: they are what is said in containers
without styles, and a rendering makes such containers for markers only.

* `gathers_markers`: a rendering shows the markers of the items that it comes to, in order;
* `itemMarker_eq_marker`: the number that an item knows is its place among the items of its list;
* `pass_markers`: how the content of a document is counted, which markers a pass shows, and that
  those of each list are the numbers in order.
-/

import PagedHtml.Proofs.Content.Counting
import PagedHtml.Proofs.Render.Gathering

namespace PagedHtml

/-! ### Markers in a primitive -/

namespace Primitive

mutual

/-- **The markers in a primitive**, in order: what is said in each container without styles. -/
def markers : Primitive → List String
  | view [] _ children => [textContentAll children]
  | view (_ :: _) _ children | text _ children | link _ _ children => markersAll children
  | empty | literal _ | image _ _ | vector _ _ => []

def markersAll : List Primitive → List String
  | [] => []
  | first :: rest => markers first ++ markersAll rest

end

theorem markersAll_eq (primitives : List Primitive) :
    markersAll primitives = primitives.flatMap markers := by
  induction primitives with
  | nil => rfl
  | cons primitive rest ih => rw [markersAll, ih, List.flatMap_cons]

theorem markers_view {style : List Style.Map} (styled : style ≠ []) (wrap : Bool)
    (children : List Primitive) :
    (view style wrap children).markers = children.flatMap markers := by
  cases style with
  | nil => exact absurd rfl styled
  | cons => exact markersAll_eq children

end Primitive

/-! ### Items of lists -/

namespace Outline

/-- Whether an element is an item of a list. -/
def isItem (outline : Outline) (id : Nat) : Bool :=
  (outline.element? id).any fun data => data.tag == "li"

/-- Whether an element is a numbered list. -/
def isNumbered (outline : Outline) (id : Nat) : Bool :=
  (outline.element? id).any fun data => data.tag == "ol"

/-- The items right in an element, in order. -/
def items (outline : Outline) (id : Nat) : List Nat := (outline.children id).filter outline.isItem

/-- The number of an item, which is its place among others, as text. -/
def numeral (place : Nat) : String := toString (place + 1) ++ "."

/-- **What stands before an item**: its number among the items of its list, if that is numbered, and
a bullet anywhere else. -/
def itemMarker (outline : Outline) (id : Nat) : String :=
  match outline.parent? id with
  | some parent =>
    if outline.isNumbered parent then numeral ((outline.items parent).idxOf id) else "•"
  | none => "•"

/-- The items that a rendering comes to, in order. -/
def reachedItems (outline : Outline) : List Nat :=
  ((List.range outline.size).filter outline.IsReached).filter outline.isItem

/-! ### Numbers of items -/

/-- Among those that are kept, an element has the number of those that are kept before it. -/
theorem idxOf_filter {α : Type} [DecidableEq α] {keep : α → Bool} {list : List α} {a : α}
    {step : Nat} (different : list.Nodup) (taken : list[step]? = some a) (kept : keep a = true) :
    (list.filter keep).idxOf a = (list.take step).countP keep := by
  obtain ⟨inside, equal⟩ := List.getElem?_eq_some_iff.mp taken
  have split : list = list.take step ++ a :: list.drop (step + 1) := by
    rw [← equal, List.getElem_cons_drop, List.take_append_drop]
  have before : a ∉ (list.take step).filter keep := by
    intro member
    rw [split, List.nodup_append] at different
    exact different.2.2 a (List.mem_of_mem_filter member) a List.mem_cons_self rfl
  conv_lhs => rw [split]
  rw [List.filter_append, List.filter_cons_of_pos kept, List.idxOf_append_of_notMem before,
    List.idxOf_cons_self, Nat.add_zero, List.countP_eq_length_filter]

/-- Numbering what is different by its places gives the numbers in order. -/
theorem map_idxOf {α β : Type} [DecidableEq α] {list : List α} (different : list.Nodup)
    (f : Nat → β) : list.map (fun a => f (list.idxOf a)) = (List.range list.length).map f := by
  apply List.ext_getElem
  · simp
  · intro place _ _
    simp [different.idxOf_getElem]

namespace IsTree

variable {outline : Outline} (tree : outline.IsTree)
include tree

theorem nodup_children (id : Nat) : (outline.children id).Nodup :=
  (List.pairwise_cons.mp (tree.increasing id)).2.imp Nat.ne_of_lt

/-- An item is right in the list that has it. -/
theorem mem_items_iff {list id : Nat} :
    id ∈ outline.items list ↔ outline.isItem id = true ∧ outline.parent? id = some list := by
  rw [items, List.mem_filter, and_comm]
  refine and_congr_right fun item => ?_
  obtain ⟨data, known, -⟩ := (Option.any_eq_true _ _).mp item
  exact (tree.parent_iff id data known list).symm

/-- **The items of a numbered list are numbered from one**, in order. -/
theorem map_itemMarker_items {list : Nat} (numbered : outline.isNumbered list = true) :
    (outline.items list).map outline.itemMarker =
      (List.range (outline.items list).length).map numeral := by
  have different : (outline.items list).Nodup := (tree.nodup_children list).filter _
  rw [← map_idxOf different numeral]
  refine List.map_congr_left fun id member => ?_
  obtain ⟨-, around⟩ := tree.mem_items_iff.mp member
  simp [itemMarker, around, numbered]

/-- A rendering that comes to a numbered list comes to all of its items, in order. -/
theorem filter_reachedItems {list : Nat} (reached : outline.IsReached list)
    (numbered : outline.isNumbered list = true) :
    outline.reachedItems.filter (fun id => outline.parent? id = some list) =
      outline.items list := by
  obtain ⟨data, known, tagged⟩ := (Option.any_eq_true _ _).mp numbered
  have speaks : data.tag ∉ Content.silentTags := by
    rw [eq_of_beq tagged]
    decide
  have sorted : (outline.reachedItems.filter
      (fun id => decide (outline.parent? id = some list))).Pairwise (· < ·) :=
    ((List.pairwise_lt_range.filter _).filter _).filter _
  have also : (outline.items list).Pairwise (· < ·) :=
    (List.pairwise_cons.mp (tree.increasing list)).2.filter _
  refine List.Perm.eq_of_pairwise (fun _ _ _ _ less more => absurd less (Nat.lt_asymm more))
    sorted also ((List.perm_ext_iff_of_nodup (sorted.imp Nat.ne_of_lt)
      (also.imp Nat.ne_of_lt)).mpr fun id => ?_)
  rw [tree.mem_items_iff, List.mem_filter, reachedItems, List.mem_filter,
    Content.mem_filter_isReached, decide_eq_true_eq]
  constructor
  · rintro ⟨⟨-, item⟩, around⟩
    exact ⟨item, around⟩
  · rintro ⟨item, around⟩
    have inside : outline.IsReached id := by
      refine ⟨Option.isSome_of_any item, ?_⟩
      rw [tree.above_of_parent? around known]
      exact List.forall_mem_cons.mpr ⟨speaks, reached.2⟩
    exact ⟨⟨inside, item⟩, around⟩

end IsTree

end Outline

namespace Content

variable {document : Document} {computed : Option ComputedStyle} {root : Nat} {content : Content}

/-- **The number that an item knows is its place among the items of its list.** -/
theorem itemMarker_eq_marker (built : (ofDocument document computed root).outcome = .ok content)
    {id : Nat} {data : StyledElement} (known : content.outline.element? id = some data)
    (item : data.tag = "li") :
    content.outline.itemMarker id = marker (content.outline.above id).head? data := by
  have tree := isTree_outline content
  rw [Outline.itemMarker, marker, if_pos item]
  cases around : content.outline.parent? id with
  | none =>
    rw [tree.above_eq, around]
    rfl
  | some list =>
    obtain ⟨outer, found⟩ := tree.exists_element?_parent around
    rw [tree.above_of_parent? around found, List.head?_cons, Option.any_some]
    simp only [Outline.isNumbered, found, Option.any_some, beq_iff_eq, decide_eq_true_eq]
    split
    · have isItem : content.outline.isItem id = true := by
        rw [Outline.isItem, known, Option.any_some, item]
        rfl
      obtain ⟨step, listed⟩ := List.mem_iff_getElem?.mp (tree.mem_children around)
      have place : (content.outline.items list).idxOf id = data.indexOfType := by
        rw [indexOfType_outline built listed known, item]
        exact Outline.idxOf_filter (tree.nodup_children list) listed isItem
      rw [place]
      rfl
    · rfl

end Content

/-! ### Rendering -/

namespace Render

/-- The marker of the first element of a chain, if it is an item. -/
def markerAt : List StyledElement → List String
  | [] => []
  | data :: around => if data.tag = "li" then [Content.marker around.head? data] else []

/-- **Markers are gathered from the items that a rendering comes to.** -/
theorem gathers_markers (composer : Composer) (rules : List StyleRule) :
    Gathers composer rules Primitive.markers fun chain added => added = markerAt chain where
  literal _ := rfl
  run := Primitive.markersAll_eq
  silent {around id data below inside tag primitive} named shown silent := by
    have other : data.tag ≠ "li" := by
      rw [← named]
      rintro same
      rw [same] at silent
      exact absurd silent (by decide)
    rw [markerAt, if_neg other]
    cases rendered_of_standard shown with
    | nothing | vector | picture | noPicture => rfl
    | lineBreak => exact Primitive.markers_view (cascade_ne_nil composer rules data around) _ _
    | item => exact absurd silent (by decide)
    | view plain | text plain | link plain => exact absurd silent (not_silent_of_isPlain plain)
  speaks {around id data below inside tag primitive} named shown speaks := by
    have styled : (composer.contextOf rules around id data below inside).style ≠ [] :=
      cascade_ne_nil composer rules data around
    have unlisted (plain : IsPlain tag) : markerAt (data :: around) = [] := by
      rw [markerAt, if_neg]
      rw [← named, ← eq_listItem_iff]
      rintro rfl
      exact absurd plain (by decide)
    have styles := hasStylesOf_of_standard shown
    cases rendered_of_standard shown with
    | nothing isMetadata => exact absurd ((mem_silentTags_iff tag).mpr (.inl isMetadata)) speaks
    | lineBreak | vector | picture | noPicture => exact absurd (by decide) speaks
    | @item children known =>
      refine ⟨children, [Content.marker around.head? data], known, (if_pos named.symm).symm, ?_⟩
      have same : marker (composer.contextOf rules around id data below inside) =
          Content.marker around.head? data :=
        (if_pos rfl).symm.trans (lead_eq_marker named)
      rw [Primitive.unbreakable, Primitive.markers_view styled, ← same]
      simp [Primitive.container, Primitive.markers, Primitive.textContent,
        Primitive.textContentAll, Primitive.markersAll_eq]
    | @view _ style wrap children plain known =>
      obtain ⟨before, after, same, -⟩ := styles Primitive.noConfusion
      have styled : style ≠ [] := by
        rintro rfl
        exact List.append_ne_nil_of_left_ne_nil
          (List.append_ne_nil_of_right_ne_nil before styled) after same.symm
      exact ⟨children, [], known, (unlisted plain).symm,
        Primitive.markers_view styled wrap children⟩
    | @text _ children plain known | @link _ _ children plain known =>
      exact ⟨children, [], known, (unlisted plain).symm, Primitive.markersAll_eq children⟩

theorem flatMap_ite_singleton {α β : Type} (keep : α → Bool) (f : α → β) (list : List α) :
    (list.flatMap fun a => if keep a then [f a] else []) = (list.filter keep).map f := by
  induction list with
  | nil => rfl
  | cons a rest ih =>
    rw [List.flatMap_cons, ih]
    by_cases kept : keep a = true
    · rw [if_pos kept, List.filter_cons_of_pos kept]
      rfl
    · rw [if_neg kept, List.filter_cons_of_neg kept]
      rfl

section

variable {document : Document} {computed : Option ComputedStyle} {root : Nat}
  {sheets : List Style.Table} {content : Content}

/-- The markers of the reached elements, by their numbers. -/
theorem flatMap_markerAt_reached
    (built : (Content.ofDocument document computed root).outcome = .ok content) :
    (content.reached []).flatMap markerAt =
      content.outline.reachedItems.map content.outline.itemMarker := by
  have each (id : Nat) : markerAt (content.outline.chain id) =
      if content.outline.isItem id then [content.outline.itemMarker id] else [] := by
    rw [(Content.isTree_outline content).chain_eq, Outline.isItem]
    cases known : content.outline.element? id with
    | none => rfl
    | some data =>
      simp only [markerAt, Option.any_some, beq_iff_eq]
      split
      · next item => rw [Content.itemMarker_eq_marker built known item]
      · rfl
  rw [Content.reached_eq, List.flatMap_map, funext each, flatMap_ite_singleton,
    Outline.reachedItems]

/-- **A pass shows the markers of the items that it comes to**, in order. -/
theorem markers_pass {options : Options} {acquirer : Acquirer} {primitive : Primitive}
    (built : (document.build computed root).outcome = .ok (sheets, content))
    (passed : (pass options Registry.standard acquirer document computed root).value =
      .ok primitive) :
    primitive.markers = content.outline.reachedItems.map content.outline.itemMarker := by
  obtain ⟨whole, inside, rfl⟩ := exists_rendered built passed
  have shown := (gathers_markers _ _).render_eq rfl (hasSmallTags_of_build built) inside
  rw [flatMap_markerAt_reached (ofDocument_of_build built)] at shown
  rw [Primitive.container, Primitive.markers_view (List.cons_ne_nil _ _), List.flatMap_singleton,
    shown]

/-- **How a content is counted, and how its lists are numbered.**

Each element knows how many elements with its tag stand before it among the children that it is one
of, and the outermost one that there are none. A pass shows the markers of the items that it comes
to, in order, and it comes to all items of a numbered list that it comes to. Whatever stands between
them, in them or elsewhere, their markers are the numbers from one on. -/
theorem pass_markers (built : (document.build computed root).outcome = .ok (sheets, content)) :
    let outline := content.outline
    (∀ above step id data, (outline.children above)[step]? = some id →
      outline.element? id = some data →
      data.indexOfType = ((outline.children above).take step).countP fun earlier =>
        (outline.element? earlier).any fun other => other.tag == data.tag) ∧
    (∀ data, outline.element? Outline.root = some data → data.indexOfType = 0) ∧
    ∀ options acquirer primitive,
      (pass options Registry.standard acquirer document computed root).value = .ok primitive →
      primitive.markers = outline.reachedItems.map outline.itemMarker ∧
      ∀ list, outline.IsReached list → outline.isNumbered list = true →
        outline.reachedItems.filter (fun id => outline.parent? id = some list) =
          outline.items list ∧
        (outline.items list).map outline.itemMarker =
          (List.range (outline.items list).length).map Outline.numeral := by
  intro outline
  have made := ofDocument_of_build built
  have tree := Content.isTree_outline content
  refine ⟨fun above step id data listed known => Content.indexOfType_outline made listed known,
    fun data known => Content.indexOfType_root made known, ?_⟩
  intro options acquirer primitive passed
  refine ⟨markers_pass built passed, fun list reached numbered => ?_⟩
  exact ⟨tree.filter_reachedItems reached numbered, tree.map_itemMarker_items numbered⟩

end

/-- A numbered list with a comment, a hidden item and another numbered list between its items. -/
theorem pass_markers_nested :
    let document : Document := ⟨#[⟨.element ⟨"ol", .empty⟩, none, [1, 2, 3, 4, 5]⟩,
      ⟨.element ⟨"li", .empty⟩, some 0, []⟩, ⟨.comment "li", some 0, []⟩,
      ⟨.element ⟨"LI", .empty⟩, some 0, []⟩, ⟨.element ⟨"OL", .empty⟩, some 0, [6]⟩,
      ⟨.element ⟨"li", .empty⟩, some 0, []⟩, ⟨.element ⟨"li", .empty⟩, some 4, []⟩]⟩
    let computed : ComputedStyle := ComputedStyle.empty.set 3 "display" "none"
    (∃ sheets content, (document.build (some computed) 0).outcome = .ok (sheets, content)) ∧
      ∃ primitive, (pass Options.default Registry.standard (fun _ => .error .emptySource) document
          (some computed) 0).value = .ok primitive ∧
        primitive.markers = ["1.", "1.", "2."] := by
  intro document computed
  let list (index : Nat) (children : List Content) : Content :=
    .element ⟨"ol", .empty, .empty, index⟩ children
  let item (index : Nat) : Content := .element ⟨"li", .empty, .empty, index⟩ []
  let content : Content := list 0 [item 0, .text "", .text "", list 0 [item 0], item 1]
  have built : (document.build (some computed) 0).outcome = .ok ([], content) := by rfl
  have succeeds : (pass Options.default Registry.standard (fun _ => .error .emptySource) document
      (some computed) 0).value.toOption.isSome = true := by decide +kernel
  refine ⟨⟨_, _, built⟩, ?_⟩
  cases passed : (pass Options.default Registry.standard (fun _ => .error .emptySource) document
      (some computed) 0).value with
  | error failure =>
    rw [passed] at succeeds
    cases succeeds
  | ok primitive =>
    refine ⟨primitive, rfl, ((pass_markers built).2.2 _ _ primitive passed).1.trans ?_⟩
    decide +kernel

end Render

end PagedHtml
