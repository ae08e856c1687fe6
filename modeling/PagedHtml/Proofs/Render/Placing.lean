/-
**A renderer is told where its element stands.**

A context has the number of an element and the whole content by number, and also what can be looked
up there: the element, those around it and the numbers of its children. Where a content is composed
with its own outline these agree (`Context.IsPlaced`), so that a renderer can go on from its element
to any other one.

* `isPlaced_contextOf`: what is handed over for the element at a place is placed;
* `render_congr`: by induction on what stands at a place, no other context matters;
* `compose_congr`: registries that do the same where a context is placed compose the same.
-/

import PagedHtml.Proofs.Render.Reach

namespace PagedHtml.Render

/-! ### Placed contexts -/

/-- **That a context is placed**: what it shows of an element and around it is what its outline has
at its number. -/
structure Context.IsPlaced (context : Context) : Prop where
  element : context.outline.element? context.node = some context.element
  childIds : context.outline.children context.node = context.childIds
  around : context.outline.above context.node = context.around
  parent : (context.outline.parent? context.node).bind context.outline.element? = context.parent?

variable {composer : Composer} {whole : Content}

/-- **The context of the element at a place is placed**, whatever is in it is rendered as. -/
theorem isPlaced_contextOf (own : composer.outline = whole.outline) {place : List Nat}
    {data : StyledElement} {children : List Content}
    (here : whole.at? place = some (.element data children)) (rules : List StyleRule)
    (inside : Except RenderError (List Primitive)) :
    (composer.contextOf rules (whole.outline.above (whole.number place)) (whole.number place) data
      children inside).IsPlaced where
  element := by
    show composer.outline.element? _ = _
    rw [own]
    exact Content.element?_outline here
  childIds := by
    show composer.outline.children _ = _
    rw [own]
    exact Content.children_outline here
  around := congrArg (fun outline => outline.above (whole.number place)) own
  parent := by
    show (composer.outline.parent? _).bind composer.outline.element? = _
    rw [own]
    exact ((Content.isTree_outline whole).head?_above _).symm

/-! ### The walk -/

/-- That two registries do the same with whatever is placed in a content. -/
def Registry.Agree (first second : Registry) (whole : Content) : Prop :=
  ∀ context : Context, context.outline = whole.outline → context.IsPlaced →
    first.dispatch context = second.dispatch context

variable {registry : Registry}

mutual

/-- **Only what is done with placed contexts matters** for what stands at a place. -/
theorem render_congr (own : composer.outline = whole.outline)
    (agree : registry.Agree composer.registry whole) (rules : List StyleRule) (place : List Nat)
    (content : Content) (here : whole.at? place = some content) :
    Composer.render { composer with registry := registry } rules
        (whole.outline.above (whole.number place)) (whole.number place) content =
      composer.render rules (whole.outline.above (whole.number place)) (whole.number place)
        content := by
  cases content with
  | text => rfl
  | element data children =>
    have inside := renderAll_congr own agree rules place data [] children here
    rw [Content.sizeAll, Nat.add_zero] at inside
    rw [Composer.render, Composer.render, inside]
    exact agree _ own (isPlaced_contextOf own here rules _)

/-- Only what is done with placed contexts matters for siblings; `before` stands before them. -/
theorem renderAll_congr (own : composer.outline = whole.outline)
    (agree : registry.Agree composer.registry whole) (rules : List StyleRule) (place : List Nat)
    (data : StyledElement) (before siblings : List Content)
    (here : whole.at? place = some (.element data (before ++ siblings))) :
    let around := data :: whole.outline.above (whole.number place)
    let id := whole.number place + 1 + Content.sizeAll before
    Composer.renderAll { composer with registry := registry } rules around id siblings =
      composer.renderAll rules around id siblings := by
  intro around id
  cases siblings with
  | nil => rfl
  | cons first rest =>
    have taken : (before ++ first :: rest)[before.length]? = some first := by
      rw [List.getElem?_append_right (Nat.le_refl _), Nat.sub_self, List.getElem?_cons_zero]
    have below : whole.at? (place ++ [before.length]) = some first := by
      rw [Content.at?_append here]
      exact Content.at?_cons_eq_some.mpr ⟨first, taken, Content.at?_nil first⟩
    have numbered : whole.number (place ++ [before.length]) = id := by
      rw [Content.number_append here, Content.number_cons taken, Content.number_nil,
        Content.children, List.take_left, Nat.add_zero, ← Nat.add_assoc]
    have one : Composer.render { composer with registry := registry } rules around id first =
        composer.render rules around id first := by
      cases first with
      | text => rfl
      | element other children =>
        have above : whole.outline.above (whole.number (place ++ [before.length])) = around :=
          Content.above_concat here taken
        rw [← numbered, ← above]
        exact render_congr own agree rules _ (.element other children) below
    have more := renderAll_congr own agree rules place data (before ++ [first]) rest
      (by rw [List.append_assoc]; exact here)
    simp only [Content.sizeAll_append, Content.sizeAll, Nat.add_zero, ← Nat.add_assoc] at more
    rw [Composer.renderAll, Composer.renderAll, one, more]

end

/-- **Registries that do the same where a context is placed** compose the same. -/
theorem compose_congr (own : composer.outline = whole.outline)
    (agree : registry.Agree composer.registry whole) :
    Composer.compose { composer with registry := registry } whole = composer.compose whole := by
  have outermost := (Content.isTree_outline whole).above_eq Outline.root
  rw [(Content.isTree_outline whole).root_alone] at outermost
  have same := render_congr own agree composer.rules [] whole (Content.at?_nil whole)
  rw [Content.number_nil, show (0 : Nat) = Outline.root from rfl, outermost] at same
  exact same

end PagedHtml.Render
