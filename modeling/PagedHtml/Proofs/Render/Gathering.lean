/-
**What is gathered from a rendering.**

What is gathered from primitives in order, such as their pictures or their styles, is gathered from
the elements that a rendering comes to. Each of them adds something of its own in front of what is
gathered from its children, or in the place of it, if nothing is read of it (`Gathers`). The runs
that texts are put into change nothing, for what is left out of them is blank, and blank is text.

* `Gathers.render`: by induction on the content, what is gathered from a rendering is what the
  reached elements add, in order;
* `exists_rendered`: what a pass has to render.
-/

import PagedHtml.Proofs.Render.Reach
import PagedHtml.Proofs.Render.Recasting

namespace PagedHtml.Render

/-! ### What an element adds -/

/-- An element has at least its own style. -/
theorem cascade_ne_nil (composer : Composer) (rules : List StyleRule) (data : StyledElement)
    (around : List StyledElement) : composer.cascade rules data around ≠ [] :=
  List.append_ne_nil_of_right_ne_nil _ (List.cons_ne_nil _ _)

/-- **That what `gather` takes from a primitive is what elements add**, where the first element of a
chain adds what `adds` admits. -/
structure Gathers {γ : Type} (composer : Composer) (rules : List StyleRule)
    (gather : Primitive → List γ) (adds : List StyledElement → List γ → Prop) : Prop where
  literal (content : String) : gather (.literal content) = []
  run (run : List Primitive) : gather (.text [] run) = run.flatMap gather
  /-- Where nothing is read of an element, nothing is gathered from its children. -/
  silent {around : List StyledElement} {id : Nat} {data : StyledElement} {below : List Content}
    {inside : Except RenderError (List Primitive)} {tag : Tag} {primitive : Primitive} :
    tag.name = data.tag →
    standard tag (composer.contextOf rules around id data below inside) = .ok primitive →
    tag.name ∈ Content.silentTags → adds (data :: around) (gather primitive)
  speaks {around : List StyledElement} {id : Nat} {data : StyledElement} {below : List Content}
    {inside : Except RenderError (List Primitive)} {tag : Tag} {primitive : Primitive} :
    tag.name = data.tag →
    standard tag (composer.contextOf rules around id data below inside) = .ok primitive →
    tag.name ∉ Content.silentTags → ∃ children own, inside = .ok children ∧
      adds (data :: around) own ∧ gather primitive = own ++ children.flatMap gather

/-! ### Blanks -/

/-- Inline elements are rendered as something. -/
theorem ne_empty_of_isInline {context : Context} {tag : Tag} {primitive : Primitive}
    (rendered : Rendered context tag primitive) (isInline : tag.isInline = true) :
    primitive ≠ .empty := by
  rintro rfl
  cases rendered with
  | nothing isMetadata =>
    have isAnchor : tag = .anchor := by simpa [Tag.isInline, isMetadata] using isInline
    rw [isAnchor] at isMetadata
    cases isMetadata
  | noPicture => cases isInline

section

variable {composer : Composer} {rules : List StyleRule} {around : List StyledElement} {id : Nat}

/-- What flows inline is rendered as something. -/
theorem ne_empty_of_flowsInline (usual : composer.registry = Registry.standard)
    {content : Content} (small : HasSmallTags content.elements)
    (inline : flowsInline content = true) {primitive : Primitive}
    (rendered : composer.render rules around id content = .ok primitive) :
    primitive ≠ .empty := by
  cases content with
  | text shown =>
    cases rendered
    exact nofun
  | element data children =>
    rw [Composer.render, usual] at rendered
    obtain ⟨here, -⟩ := List.forall_mem_cons.mp small
    obtain ⟨tag, named, rendered⟩ := rendered_of_dispatch rendered here
    refine ne_empty_of_isInline rendered ?_
    have named : tag.name = data.tag := named
    have known : Tag.ofName? data.tag = some tag := by
      rw [← Tag.ofName?_name tag, named]
    rwa [flowsInline, Tag.isInlineName, known] at inline

theorem not_mem_empty_of_renderAll (usual : composer.registry = Registry.standard)
    {siblings : List Content} (small : HasSmallTags (Content.elementsAll siblings))
    {primitives : List Primitive}
    (rendered : composer.renderAll rules around id siblings = .ok primitives) :
    (true, .empty) ∉ (siblings.map flowsInline).zip primitives := by
  induction siblings generalizing primitives id with
  | nil => exact List.not_mem_nil
  | cons first rest ih =>
    obtain ⟨here, later⟩ := List.forall_mem_append.mp small
    obtain ⟨primitive, others, one, more, rfl⟩ := renderAll_cons_eq_ok_iff.mp rendered
    rw [List.map_cons, List.zip_cons_cons, List.mem_cons, Prod.mk.injEq]
    rintro (⟨inline, rfl⟩ | behind)
    · exact ne_empty_of_flowsInline usual here inline.symm one rfl
    · exact ih later more behind

end

/-- A blank that is something is a text. -/
theorem exists_literal_of_isBlank {primitive : Primitive} (blank : isBlank primitive = true)
    (shown : primitive ≠ .empty) : ∃ content, primitive = .literal content := by
  cases primitive with
  | literal content => exact ⟨content, rfl⟩
  | empty => exact absurd rfl shown
  | view | text | link | image | vector => cases blank

/-! ### The walk -/

namespace Gathers

variable {γ : Type} {composer : Composer} {rules : List StyleRule} {gather : Primitive → List γ}
  {adds : List StyledElement → List γ → Prop}

/-- Arranging what is in an element keeps what is gathered, in order. -/
theorem flatMap_arrange (gathers : Gathers composer rules gather adds)
    (usual : composer.registry = Registry.standard) {around : List StyledElement} {id : Nat}
    {data : StyledElement} {children : List Content} {primitives : List Primitive}
    (small : HasSmallTags (Content.elementsAll children))
    (rendered : composer.renderAll rules around id children = .ok primitives) :
    (Composer.arrange data children primitives).flatMap gather = primitives.flatMap gather := by
  refine Render.flatMap_arrange gathers.run (length_of_renderAll rendered)
    fun primitive member blank => ?_
  have shown : primitive ≠ .empty := by
    rintro rfl
    exact not_mem_empty_of_renderAll usual small rendered member
  obtain ⟨content, rfl⟩ := exists_literal_of_isBlank blank shown
  exact gathers.literal content

mutual

/-- **What is gathered from a rendering is what the elements that it comes to add**, in order. -/
theorem render (gathers : Gathers composer rules gather adds)
    (usual : composer.registry = Registry.standard) (around : List StyledElement) (id : Nat)
    (content : Content) (small : HasSmallTags content.elements) {primitive : Primitive}
    (rendered : composer.render rules around id content = .ok primitive) :
    ∃ parts, List.Forall₂ adds (content.reached around) parts ∧
      gather primitive = parts.flatten := by
  cases content with
  | text shown =>
    cases rendered
    exact ⟨[], List.Forall₂.nil, gathers.literal _⟩
  | element data children =>
    rw [Composer.render, usual] at rendered
    obtain ⟨here, below⟩ := List.forall_mem_cons.mp small
    obtain ⟨tag, named, shown⟩ := exists_standard_of_dispatch rendered here
    have named : tag.name = data.tag := named
    rw [Content.reached_element]
    by_cases silent : tag.name ∈ Content.silentTags
    · rw [if_pos (named ▸ silent)]
      refine ⟨[gather primitive], ?_, (List.append_nil _).symm⟩
      exact List.Forall₂.cons (gathers.silent named shown silent) List.Forall₂.nil
    · obtain ⟨arranged, own, known, added, gathered⟩ := gathers.speaks named shown silent
      obtain ⟨primitives, done, rfl⟩ := map_eq_ok_iff.mp known
      obtain ⟨parts, each, inside⟩ :=
        gathers.renderAll usual (data :: around) (id + 1) children below done
      rw [if_neg (named ▸ silent)]
      refine ⟨own :: parts, List.Forall₂.cons added each, ?_⟩
      rw [gathered, gathers.flatMap_arrange usual below done, inside, List.flatten_cons]

/-- What is gathered from siblings is what the elements that are reached in them add. -/
theorem renderAll (gathers : Gathers composer rules gather adds)
    (usual : composer.registry = Registry.standard) (around : List StyledElement) (id : Nat)
    (siblings : List Content) (small : HasSmallTags (Content.elementsAll siblings))
    {primitives : List Primitive}
    (rendered : composer.renderAll rules around id siblings = .ok primitives) :
    ∃ parts, List.Forall₂ adds (siblings.flatMap (Content.reached around)) parts ∧
      primitives.flatMap gather = parts.flatten := by
  cases siblings with
  | nil =>
    cases rendered
    exact ⟨[], List.Forall₂.nil, rfl⟩
  | cons first rest =>
    obtain ⟨here, later⟩ := List.forall_mem_append.mp small
    obtain ⟨primitive, others, one, more, rfl⟩ := renderAll_cons_eq_ok_iff.mp rendered
    obtain ⟨parts, each, gathered⟩ := gathers.render usual around id first here one
    obtain ⟨further, eachMore, gatheredMore⟩ :=
      gathers.renderAll usual around (id + first.size) rest later more
    refine ⟨parts ++ further, ?_, ?_⟩
    · rw [List.flatMap_cons]
      exact List.rel_append each eachMore
    · rw [List.flatMap_cons, gathered, gatheredMore, List.flatten_append]

end

/-- Where it is settled what an element adds, so is what is gathered. -/
theorem render_eq {own : List StyledElement → List γ}
    (gathers : Gathers composer rules gather fun chain added => added = own chain)
    (usual : composer.registry = Registry.standard) {around : List StyledElement} {id : Nat}
    {content : Content} (small : HasSmallTags content.elements) {primitive : Primitive}
    (rendered : composer.render rules around id content = .ok primitive) :
    gather primitive = (content.reached around).flatMap own := by
  obtain ⟨parts, each, gathered⟩ := gathers.render usual around id content small rendered
  have same : List.Forall₂ Eq parts ((content.reached around).map own) :=
    List.forall₂_map_right_iff.mpr each.flip
  rw [List.forall₂_eq_eq_eq] at same
  rw [gathered, same, List.flatMap_def]

end Gathers

/-! ### Passes -/

/-- **What a pass has to render** is what it composes for the content of the document. -/
theorem exists_rendered {options : Options} {acquirer : Acquirer} {document : Document}
    {computed : Option ComputedStyle} {root : Nat} {sheets : List Style.Table} {content : Content}
    {primitive : Primitive}
    (built : (document.build computed root).outcome = .ok (sheets, content))
    (passed : (pass options Registry.standard acquirer document computed root).value =
      .ok primitive) :
    ∃ whole, (composerOf options acquirer sheets content).compose content = .ok whole ∧
      primitive = .container [options.style] [whole] := by
  rw [value_pass_of_build built] at passed
  cases composed : (composerOf options acquirer sheets content).compose content with
  | error failure =>
    rw [composed] at passed
    cases passed
  | ok whole =>
    rw [composed] at passed
    cases passed
    exact ⟨whole, rfl, rfl⟩

end PagedHtml.Render
