/-
**Which documents cannot be rendered, and why.**

The standard renderers refuse an element whose tag is outside of the vocabulary and a cell without a
table around it (`Refuses`), and nothing else. Each of them looks at its own element before it looks
at what is in it, and what is in an element is looked at in order: the refusal that counts is the
first one in the order of the text, among the elements that a rendering comes to.

* `failure?_dispatch`: what the standard renderers refuse of one element;
* `failure?_render`: by induction on the content, a rendering fails with the first refusal;
* `pass_fails_iff`: a pass fails with the refusal at the smallest number of an outline, and succeeds
  if there is none.
-/

import Mathlib.Tactic.IntervalCases
import PagedHtml.Proofs.Render.Reach

namespace PagedHtml.Render

variable {α β ε : Type}

/-! ### Refusals -/

/-- **Why an element cannot be rendered** among the elements around it. -/
inductive Refuses (around : List StyledElement) (data : StyledElement) : RenderError → Prop
  | unknown : (∀ tag : Tag, tag.name ≠ data.tag) → Refuses around data (.unknownTag data.tag)
  | cell : data.tag = "td" ∨ data.tag = "th" → (∀ outer ∈ around, outer.tag ≠ "table") →
      Refuses around data (.cellOutsideTable data.tag)

/-- The refusal of the first element of a chain, if it cannot be rendered among the others. -/
def refusal? : List StyledElement → Option RenderError
  | [] => none
  | data :: around =>
    if (Tag.ofName? data.tag).isNone then some (.unknownTag data.tag)
    else if data.tag ∈ ["td", "th"] ∧ ∀ outer ∈ around, outer.tag ≠ "table" then
      some (.cellOutsideTable data.tag)
    else none

theorem isNone_ofName?_iff {name : String} (small : Text.lower name = name) :
    (Tag.ofName? name).isNone ↔ ∀ tag : Tag, tag.name ≠ name := by
  cases found : Tag.ofName? name with
  | none =>
    refine ⟨fun _ tag same => ?_, fun _ => rfl⟩
    rw [← same, Tag.ofName?_name] at found
    cases found
  | some tag =>
    refine ⟨nofun, fun unknown => absurd ?_ (unknown tag)⟩
    exact (name_eq_of_ofName? found).trans small

theorem refusal?_eq_some_iff {around : List StyledElement} {data : StyledElement}
    (small : Text.lower data.tag = data.tag) {error : RenderError} :
    refusal? (data :: around) = some error ↔ Refuses around data error := by
  have unknown := isNone_ofName?_iff small
  have cells : ∀ name ∈ ["td", "th"], (Tag.ofName? name).isNone = false := by decide +kernel
  rw [refusal?]
  constructor
  · intro refused
    split at refused
    · next isUnknown =>
      cases refused
      exact .unknown (unknown.mp isUnknown)
    · split at refused
      · next isCell =>
        cases refused
        exact .cell (by simpa using isCell.1) isCell.2
      · cases refused
  · rintro (isUnknown | ⟨isCell, alone⟩)
    · exact if_pos (unknown.mpr isUnknown)
    · have listed : data.tag ∈ ["td", "th"] := by simpa using isCell
      rw [if_neg (by simp [cells _ listed]), if_pos ⟨listed, alone⟩]

/-! ### What the standard renderers refuse -/

/-- That a renderer never fails. -/
def Renderer.NeverFails (renderer : Renderer) : Prop :=
  ∀ context, failure? (renderer context) = none

/-- That a renderer fails just as what is in an element does. -/
def Renderer.FailsInside (renderer : Renderer) : Prop :=
  ∀ context, failure? (renderer context) = failure? context.children

theorem image_neverFails : Renderer.NeverFails image := by
  intro context
  unfold image
  simp only
  split
  · rfl
  · split <;> rfl

/-- Elements of which nothing is read are always rendered. -/
theorem standard_neverFails {tag : Tag} (silent : tag.name ∈ Content.silentTags) :
    Renderer.NeverFails (standard tag) := by
  rcases (mem_silentTags_iff tag).mp silent with isMetadata | rfl | rfl | rfl
  · have drops : standard tag = nothing := by
      cases tag <;> first | rfl | cases isMetadata
    rw [drops]
    exact fun _ => rfl
  · exact fun _ => rfl
  · exact image_neverFails
  · exact fun _ => rfl

/-- A renderer that goes on from the children of an element fails as they do. -/
theorem failsInside_of_make {renderer : Renderer} {make : Context → List Primitive → Primitive}
    (goes : ∀ context, renderer context = do return make context (← context.children)) :
    renderer.FailsInside := by
  intro context
  rw [goes]
  cases context.children <;> rfl

/-- Any other elements but cells are rendered if what is in them is. -/
theorem standard_failsInside {tag : Tag} (speaks : tag.name ∉ Content.silentTags)
    (notCell : tag.name ∉ ["td", "th"]) : Renderer.FailsInside (standard tag) := by
  rw [mem_silentTags_iff] at speaks
  unfold standard
  split
  · exact failsInside_of_make fun _ => rfl
  · exact absurd (.inr (.inl rfl)) speaks
  · exact failsInside_of_make fun _ => rfl
  · exact absurd (.inr (.inr (.inl rfl))) speaks
  · exact absurd (.inr (.inr (.inr rfl))) speaks
  · exact failsInside_of_make fun _ => rfl
  · exact failsInside_of_make fun _ => rfl
  · exact absurd (by decide) notCell
  · exact absurd (by decide) notCell
  · split
    · next isMetadata => exact absurd (.inl isMetadata) speaks
    · exact failsInside_of_make fun _ => rfl
    · exact failsInside_of_make fun _ => rfl
    · exact failsInside_of_make fun _ => rfl

/-- A cell is refused without a table around it, before what is in it is looked at. -/
theorem failure?_cell (context : Context) (notTable : context.element.tag ≠ "table") :
    failure? (cell context) =
      if ∀ outer ∈ context.around, outer.tag ≠ "table" then
        some (.cellOutsideTable context.element.tag)
      else failure? context.children := by
  unfold cell
  split
  · next alone =>
    rw [List.find?_eq_none] at alone
    have without : ∀ outer ∈ context.around, outer.tag ≠ "table" := by
      intro outer member isTable
      exact alone outer (List.mem_cons_of_mem _ member) (beq_iff_eq.mpr isTable)
    rw [if_pos without]
    rfl
  · next table found =>
    have holds := List.find?_some found
    have isTable : table.tag = "table" := beq_iff_eq.mp holds
    have inside : table ∈ context.around := by
      rcases List.mem_cons.mp (List.mem_of_find?_eq_some found) with rfl | inside
      · exact absurd isTable notTable
      · exact inside
    rw [if_neg fun without => without table inside isTable]
    cases context.children <;> rfl

theorem standard_of_cell {tag : Tag} (isCell : tag.name ∈ ["td", "th"]) : standard tag = cell := by
  revert isCell
  cases tag <;> first | exact fun _ => rfl | exact fun isCell => absurd isCell (by decide)

theorem not_cell_of_silent {name : String} (silent : name ∈ Content.silentTags) :
    name ∉ ["td", "th"] := by
  have apart : ∀ other ∈ Content.silentTags, other ∉ ["td", "th"] := by decide
  exact apart name silent

/-- **What is refused of an element**: the element itself, or what is in it if it is gone into. -/
theorem failure?_dispatch {context : Context}
    (small : Text.lower context.element.tag = context.element.tag) :
    failure? (Registry.standard.dispatch context) =
      (refusal? (context.element :: context.around)).or
        (if context.element.tag ∈ Content.silentTags then none else failure? context.children) := by
  unfold Registry.dispatch
  rw [refusal?]
  cases found : Tag.ofName? context.element.tag with
  | none => rfl
  | some tag =>
    have named : tag.name = context.element.tag := (name_eq_of_ofName? found).trans small
    show failure? (standard tag context) = _
    rw [← named]
    by_cases silent : tag.name ∈ Content.silentTags
    · rw [if_pos silent, standard_neverFails silent, if_neg nofun,
        if_neg fun isCell => not_cell_of_silent silent isCell.1]
      rfl
    · rw [if_neg silent, if_neg nofun]
      by_cases isCell : tag.name ∈ ["td", "th"]
      · have notTable : context.element.tag ≠ "table" := by
          rw [← named]
          rintro isTable
          rw [isTable] at isCell
          exact absurd isCell (by decide)
        rw [standard_of_cell isCell, failure?_cell context notTable, ← named]
        by_cases alone : ∀ outer ∈ context.around, outer.tag ≠ "table"
        · rw [if_pos alone, if_pos ⟨isCell, alone⟩]
          rfl
        · rw [if_neg alone, if_neg fun both => alone both.2]
          rfl
      · rw [standard_failsInside silent isCell, if_neg fun both => isCell both.1]
        rfl

/-! ### The walk -/

mutual

/-- **A rendering fails with the first refusal** among the elements that it comes to. -/
theorem failure?_render {composer : Composer} (usual : composer.registry = Registry.standard)
    (rules : List StyleRule) (around : List StyledElement) (id : Nat) (content : Content)
    (small : HasSmallTags content.elements) :
    failure? (composer.render rules around id content) =
      (content.reached around).findSome? refusal? := by
  cases content with
  | text shown => rfl
  | element data children =>
    obtain ⟨here, below⟩ := List.forall_mem_cons.mp small
    have inside := failure?_renderAll usual rules (data :: around) (id + 1) children below
    have opened (arranged : Except RenderError (List Primitive)) :
        failure? (Registry.standard.dispatch
            (composer.contextOf rules around id data children arranged)) =
          (refusal? (data :: around)).or
            (if data.tag ∈ Content.silentTags then none else failure? arranged) :=
      failure?_dispatch here
    rw [Composer.render, usual, opened, failure?_map, inside, Content.reached_element,
      List.findSome?_cons]
    cases refusal? (data :: around) with
    | some error => rfl
    | none =>
      simp only [Option.none_or]
      split <;> rfl

theorem failure?_renderAll {composer : Composer} (usual : composer.registry = Registry.standard)
    (rules : List StyleRule) (around : List StyledElement) (id : Nat) (siblings : List Content)
    (small : HasSmallTags (Content.elementsAll siblings)) :
    failure? (composer.renderAll rules around id siblings) =
      (siblings.flatMap (Content.reached around)).findSome? refusal? := by
  cases siblings with
  | nil => rfl
  | cons first rest =>
    obtain ⟨here, later⟩ := List.forall_mem_append.mp small
    rw [Composer.renderAll, List.flatMap_cons, List.findSome?_append,
      ← failure?_render usual rules around id first here,
      ← failure?_renderAll usual rules around (id + first.size) rest later]
    cases composer.render rules around id first with
    | error error => rfl
    | ok primitive => cases composer.renderAll rules around (id + first.size) rest <;> rfl

end

/-! ### Passes -/

/-- **That the element with a number is refused**: a rendering comes to it and it cannot be rendered
among the elements above it. -/
def IsRefused (outline : Outline) (id : Nat) (error : RenderError) : Prop :=
  outline.IsReached id ∧ ∃ data, outline.element? id = some data ∧
    Refuses (outline.above id) data error

/-- The refusal of a number, as a rendering finds it. -/
theorem isRefused_iff {content : Content} (small : HasSmallTags content.elements) {id : Nat}
    {error : RenderError} :
    IsRefused content.outline id error ↔
      content.outline.IsReached id ∧ refusal? (content.outline.chain id) = some error := by
  refine and_congr_right fun reached => ?_
  obtain ⟨data, known⟩ := Option.isSome_iff_exists.mp reached.1
  have chain : content.outline.chain id = data :: content.outline.above id := by
    rw [(Content.isTree_outline content).chain_eq, known]
  rw [chain, refusal?_eq_some_iff (small data (Content.mem_elements_of_element? known)), known]
  simp

/-- **A pass fails with the first refusal in the order of the text**, and succeeds if there is none.
-/
theorem pass_fails_iff {options : Options} {acquirer : Acquirer} {document : Document}
    {computed : Option ComputedStyle} {root : Nat} {sheets : List Style.Table} {content : Content}
    (built : (document.build computed root).outcome = .ok (sheets, content)) :
    ((∃ primitive, (pass options Registry.standard acquirer document computed root).value =
        .ok primitive) ↔ ∀ id error, ¬ IsRefused content.outline id error) ∧
    ∀ failure, (pass options Registry.standard acquirer document computed root).value =
        .error failure ↔
      ∃ id error, IsRefused content.outline id error ∧
        (∀ earlier < id, ∀ other, ¬ IsRefused content.outline earlier other) ∧
        failure = .render error := by
  have small := hasSmallTags_of_build built
  obtain ⟨composer, usual, -, composed⟩ :=
    @exists_composer options Registry.standard acquirer document computed root sheets content built
  have fails : failure? (pass options Registry.standard acquirer document computed root).value =
      ((content.reached []).findSome? refusal?).map .render := by
    rw [composed, failure?_mapError, failure?_map,
      ← failure?_render usual composer.rules [] Outline.root content small]
    rfl
  have unrefused (id : Nat) : (∀ error, ¬ IsRefused content.outline id error) ↔
      (content.outline.IsReached id → refusal? (content.outline.chain id) = none) := by
    simp only [isRefused_iff small, not_and, Option.eq_none_iff_forall_ne_some]
    exact forall_comm
  constructor
  · rw [← failure?_eq_none_iff, fails, Option.map_eq_none_iff,
      Content.findSome?_reached_eq_none_iff]
    exact forall_congr' fun id => (unrefused id).symm
  · intro failure
    rw [← failure?_eq_some_iff, fails, Option.map_eq_some_iff]
    simp only [Content.findSome?_reached_eq_some_iff, unrefused]
    constructor
    · rintro ⟨error, ⟨id, reached, refused, before⟩, rfl⟩
      exact ⟨id, error, (isRefused_iff small).mpr ⟨reached, refused⟩, before, rfl⟩
    · rintro ⟨id, error, isRefused, before, rfl⟩
      obtain ⟨reached, refused⟩ := (isRefused_iff small).mp isRefused
      exact ⟨error, ⟨id, reached, refused, before⟩, rfl⟩

/-- A cell without a table, behind an unknown element that is not reached and before one that is. -/
theorem pass_fails_cell :
    let document : Document := ⟨#[⟨.element ⟨"div", .empty⟩, none, [1, 3, 4]⟩,
      ⟨.element ⟨"template", .empty⟩, some 0, [2]⟩, ⟨.element ⟨"x", .empty⟩, some 1, []⟩,
      ⟨.element ⟨"td", .empty⟩, some 0, []⟩, ⟨.element ⟨"y", .empty⟩, some 0, []⟩]⟩
    (∃ sheets content, (document.build none 0).outcome = .ok (sheets, content)) ∧
      (pass Options.default Registry.standard (fun _ => .error .emptySource) document none
        0).value = .error (.render (.cellOutsideTable "td")) := by
  intro document
  let content : Content := .element ⟨"div", .empty, .empty, 0⟩
    [.element ⟨"template", .empty, .empty, 0⟩ [.element ⟨"x", .empty, .empty, 0⟩ []],
      .element ⟨"td", .empty, .empty, 0⟩ [], .element ⟨"y", .empty, .empty, 0⟩ []]
  have built : (document.build none 0).outcome = .ok ([], content) := rfl
  have refused : IsRefused content.outline 3 (.cellOutsideTable "td") :=
    ⟨by decide, _, rfl, .cell (.inl rfl) (by decide)⟩
  have before : ∀ earlier < 3, ∀ other, ¬ IsRefused content.outline earlier other := by
    rintro earlier less other ⟨reached, data, known, isRefused⟩
    interval_cases earlier
    · cases known
      rcases isRefused with unknown | isCell
      · exact unknown .division rfl
      · exact absurd isCell (by decide)
    · cases known
      rcases isRefused with unknown | isCell
      · exact unknown .template rfl
      · exact absurd isCell (by decide)
    · exact absurd reached (by decide)
  exact ⟨⟨_, _, built⟩, ((pass_fails_iff built).2 _).mpr ⟨3, _, refused, before, rfl⟩⟩

end PagedHtml.Render
