/-
**What a composition makes of elements and of runs of text.**

`Rendered` lists what the standard renderers can make of an element, tag by tag: nothing where a tag
is about the document, something of their own for line breaks, items, images and vector graphics,
and for any other element a container, a run of text or a link that holds what is in the element.
What is gathered from primitives in order, such as their text, is gathered just as well from runs
of them, if nothing of it is in the blanks that are left out.

* `flatMap_bundle`, `flatMap_arrange`: gathering goes through runs of text;
* `rendered_of_dispatch`: the cases of all that is rendered, by which facts about it are shown;
* `hasStylesOf_of_standard`: whatever is made of an element has the styles that apply to it;
* `renderAll_cons_eq_ok_iff`, `length_of_renderAll`: siblings are rendered one after another.
-/

import PagedHtml.Proofs.Content.Building
import PagedHtml.Render.Composition
import PagedHtml.Render.Standard

namespace PagedHtml.Render

/-! ### Runs of text -/

section

variable {γ : Type} {f : Primitive → List γ}

theorem flatMap_runOf (inRuns : ∀ run, f (.text [] run) = run.flatMap f) {run : List Primitive}
    (blanks : ∀ primitive ∈ run, isBlank primitive = true → f primitive = []) :
    (runOf run).flatMap f = run.flatMap f := by
  unfold runOf
  split
  · next blank =>
    rw [List.flatMap_nil, eq_comm, List.flatMap_eq_nil_iff]
    exact fun primitive member =>
      blanks primitive member (List.all_eq_true.mp blank primitive member)
  · rw [List.flatMap_singleton, inRuns]

theorem flatMap_bundleFrom (inRuns : ∀ run, f (.text [] run) = run.flatMap f)
    {run : List Primitive} {primitives : List (Bool × Primitive)}
    (waiting : ∀ primitive ∈ run, isBlank primitive = true → f primitive = [])
    (blanks : ∀ primitive, (true, primitive) ∈ primitives → isBlank primitive = true →
      f primitive = []) :
    (bundleFrom run primitives).flatMap f =
      run.flatMap f ++ (primitives.map Prod.snd).flatMap f := by
  induction primitives generalizing run with
  | nil =>
    rw [bundleFrom, flatMap_runOf inRuns waiting]
    simp
  | cons next rest ih =>
    obtain ⟨isInline, primitive⟩ := next
    have later := fun other member => blanks other (List.mem_cons_of_mem _ member)
    cases isInline with
    | true =>
      have longer : ∀ other ∈ run ++ [primitive], isBlank other = true → f other = [] :=
        List.forall_mem_append.mpr
          ⟨waiting, List.forall_mem_singleton.mpr (blanks primitive List.mem_cons_self)⟩
      rw [bundleFrom, ih longer later]
      simp
    | false =>
      rw [bundleFrom, List.flatMap_append, flatMap_runOf inRuns waiting, List.flatMap_cons,
        ih (List.forall_mem_nil _) later]
      simp

/-- **Bundling keeps what is gathered**, in order, if nothing is gathered from inline blanks. -/
theorem flatMap_bundle (inRuns : ∀ run, f (.text [] run) = run.flatMap f)
    {primitives : List (Bool × Primitive)}
    (blanks : ∀ primitive, (true, primitive) ∈ primitives → isBlank primitive = true →
      f primitive = []) :
    (bundle primitives).flatMap f = (primitives.map Prod.snd).flatMap f :=
  flatMap_bundleFrom inRuns (List.forall_mem_nil _) blanks

theorem flatMap_arrange (inRuns : ∀ run, f (.text [] run) = run.flatMap f) {data : StyledElement}
    {children : List Content} {primitives : List Primitive}
    (long : primitives.length = children.length)
    (blanks : ∀ primitive, (true, primitive) ∈ (children.map flowsInline).zip primitives →
      isBlank primitive = true → f primitive = []) :
    (Composer.arrange data children primitives).flatMap f = primitives.flatMap f := by
  unfold Composer.arrange
  split
  · rfl
  · have enough : primitives.length ≤ (children.map flowsInline).length :=
      Nat.le_of_eq (long.trans (List.length_map _).symm)
    rw [flatMap_bundle inRuns blanks, List.map_snd_zip enough]

end

/-! ### Siblings -/

section

variable {composer : Composer} {rules : List StyleRule} {around : List StyledElement} {id : Nat}

theorem renderAll_cons_eq_ok_iff {first : Content} {rest : List Content}
    {primitives : List Primitive} :
    composer.renderAll rules around id (first :: rest) = .ok primitives ↔
      ∃ primitive others, composer.render rules around id first = .ok primitive ∧
        composer.renderAll rules around (id + first.size) rest = .ok others ∧
          primitives = primitive :: others := by
  rw [Composer.renderAll, bind_eq_ok_iff]
  simp only [bind_eq_ok_iff]
  constructor
  · rintro ⟨primitive, one, others, more, made⟩
    cases made
    exact ⟨primitive, others, one, more, rfl⟩
  · rintro ⟨primitive, others, one, more, rfl⟩
    exact ⟨primitive, one, others, more, rfl⟩

theorem length_of_renderAll {siblings : List Content} {primitives : List Primitive}
    (rendered : composer.renderAll rules around id siblings = .ok primitives) :
    primitives.length = siblings.length := by
  induction siblings generalizing primitives id with
  | nil =>
    cases rendered
    rfl
  | cons first rest ih =>
    obtain ⟨primitive, others, -, more, rfl⟩ := renderAll_cons_eq_ok_iff.mp rendered
    exact congrArg Nat.succ (ih more)

end

/-! ### The standard renderers -/

/-- What an image is shown as: its address on the web or its bytes, if there are any. -/
def picture? (images : ImageStore) (data : StyledElement) : Option ImageSource :=
  let source := Content.imageSource data
  if Reference.isRemote source then some (.url source) else (images.get? source).map .data

/-- That an element with a tag is rendered as what is in it and nothing else. -/
def IsPlain (tag : Tag) : Prop :=
  tag.category ≠ .metadata ∧ tag ∉ [Tag.lineBreak, .listItem, .image, .vector]

instance (tag : Tag) : Decidable (IsPlain tag) := inferInstanceAs (Decidable (_ ∧ _))

/-- **What the standard renderer of a tag makes of an element.** -/
inductive Rendered (context : Context) : Tag → Primitive → Prop
  | nothing {tag : Tag} (isMetadata : tag.category = .metadata) : Rendered context tag .empty
  | lineBreak :
      Rendered context .lineBreak (.unbreakable context.style [.text [] [.literal " "]])
  | vector {shapes : List Shape} : Rendered context .vector (.vector context.style shapes)
  | picture {source : ImageSource} (known : picture? context.images context.element = some source) :
      Rendered context .image (.image context.style source)
  | noPicture (unknown : picture? context.images context.element = none) :
      Rendered context .image .empty
  | item {children : List Primitive} (known : context.children = .ok children) :
      Rendered context .listItem (.unbreakable context.style
        [.container [] [.text [] [.literal (marker context)]], .text [] children])
  | view {tag : Tag} {style : List Style.Map} {wrap : Bool} {children : List Primitive}
      (plain : IsPlain tag) (known : context.children = .ok children) :
      Rendered context tag (.view style wrap children)
  | text {tag : Tag} {children : List Primitive} (plain : IsPlain tag)
      (known : context.children = .ok children) :
      Rendered context tag (.text context.style children)
  | link {tag : Tag} {target : String} {children : List Primitive} (plain : IsPlain tag)
      (known : context.children = .ok children) :
      Rendered context tag (.link context.style target children)

variable {context : Context} {tag : Tag} {primitive : Primitive}

theorem rendered_of_image (shown : image context = .ok primitive) :
    Rendered context .image primitive := by
  unfold image at shown
  simp only at shown
  split at shown
  · next isRemote =>
    cases shown
    exact .picture (if_pos isRemote)
  · next isLocal =>
    split at shown
    · next bytes known =>
      cases shown
      exact .picture (by rw [picture?, if_neg isLocal, known]; rfl)
    · next unknown =>
      cases shown
      exact .noPicture (by rw [picture?, if_neg isLocal, unknown]; rfl)

theorem rendered_of_cell (plain : IsPlain tag) (shown : cell context = .ok primitive) :
    Rendered context tag primitive := by
  unfold cell at shown
  split at shown
  · cases shown
  · obtain ⟨children, known, made⟩ := bind_eq_ok_iff.mp shown
    cases made
    exact .view plain known

theorem rendered_of_standard (shown : standard tag context = .ok primitive) :
    Rendered context tag primitive := by
  unfold standard at shown
  split at shown
  · obtain ⟨children, known, made⟩ := bind_eq_ok_iff.mp shown
    cases made
    exact .link (by decide) known
  · cases shown
    exact .lineBreak
  · obtain ⟨children, known, made⟩ := bind_eq_ok_iff.mp shown
    cases made
    exact .item known
  · exact rendered_of_image shown
  · cases shown
    exact .vector
  · obtain ⟨children, known, made⟩ := bind_eq_ok_iff.mp shown
    cases made
    exact .view (by decide) known
  · obtain ⟨children, known, made⟩ := bind_eq_ok_iff.mp shown
    cases made
    exact .view (by decide) known
  · exact rendered_of_cell (by decide) shown
  · exact rendered_of_cell (by decide) shown
  · next notBreak notItem notImage notVector _ _ _ _ =>
    have ordinary : tag ∉ [Tag.lineBreak, .listItem, .image, .vector] := by
      simpa using ⟨notBreak, notItem, notImage, notVector⟩
    cases kind : tag.category with
    | metadata =>
      rw [kind] at shown
      cases shown
      exact .nothing kind
    | inline =>
      rw [kind] at shown
      obtain ⟨children, known, made⟩ := bind_eq_ok_iff.mp shown
      cases made
      exact .text ⟨by simp [kind], ordinary⟩ known
    | block | special =>
      rw [kind] at shown
      obtain ⟨children, known, made⟩ := bind_eq_ok_iff.mp shown
      cases made
      exact .view ⟨by simp [kind], ordinary⟩ known

/-- The tags of elements whose styles come with others before or behind them. -/
def framedTags : List Tag := [.table, .dataCell, .headerCell]

/-- **That a primitive has the styles that apply** to an element, and only those unless it is a
table or a cell. -/
def HasStylesOf (context : Context) (tag : Tag) (primitive : Primitive) : Prop :=
  ∃ before after, primitive.style = before ++ context.style ++ after ∧
    (tag ∉ framedTags → before = [] ∧ after = [])

theorem hasStylesOf_of_eq (same : primitive.style = context.style) :
    HasStylesOf context tag primitive :=
  ⟨[], [], same.trans (List.append_nil _).symm, fun _ => ⟨rfl, rfl⟩⟩

theorem hasStylesOf_of_cell (framed : tag ∈ framedTags) (shown : cell context = .ok primitive) :
    HasStylesOf context tag primitive := by
  unfold cell at shown
  split at shown
  · cases shown
  · next table _ =>
    obtain ⟨children, -, made⟩ := bind_eq_ok_iff.mp shown
    cases made
    exact ⟨[cellBase table.style (context.element.indexOfType == 0)], [spanStyle context.element],
      rfl, fun unframed => absurd framed unframed⟩

/-- **What is made of an element has the styles that apply to it**, unless it is nothing. -/
theorem hasStylesOf_of_standard (shown : standard tag context = .ok primitive)
    (something : primitive ≠ .empty) : HasStylesOf context tag primitive := by
  unfold standard at shown
  split at shown
  · obtain ⟨children, -, made⟩ := bind_eq_ok_iff.mp shown
    cases made
    exact hasStylesOf_of_eq rfl
  · cases shown
    exact hasStylesOf_of_eq rfl
  · obtain ⟨children, -, made⟩ := bind_eq_ok_iff.mp shown
    cases made
    exact hasStylesOf_of_eq rfl
  · cases rendered_of_image shown with
    | nothing | noPicture => exact absurd rfl something
    | picture => exact hasStylesOf_of_eq rfl
    | view plain | text plain | link plain => exact absurd plain (by decide)
  · cases shown
    exact hasStylesOf_of_eq rfl
  · obtain ⟨children, -, made⟩ := bind_eq_ok_iff.mp shown
    cases made
    exact ⟨[], _, rfl, fun unframed => absurd (by decide) unframed⟩
  · obtain ⟨children, -, made⟩ := bind_eq_ok_iff.mp shown
    cases made
    exact hasStylesOf_of_eq rfl
  · exact hasStylesOf_of_cell (by decide) shown
  · exact hasStylesOf_of_cell (by decide) shown
  · cases kind : tag.category with
    | metadata =>
      rw [kind] at shown
      cases shown
      exact absurd rfl something
    | inline | block | special =>
      rw [kind] at shown
      obtain ⟨children, -, made⟩ := bind_eq_ok_iff.mp shown
      cases made
      exact hasStylesOf_of_eq rfl

theorem name_eq_of_ofName? {name : String} (found : Tag.ofName? name = some tag) :
    tag.name = Text.lower name := by
  have same := List.find?_some found
  exact eq_of_beq same

/-- What is dispatched to the standard renderers is rendered by the one of the element's tag. -/
theorem exists_standard_of_dispatch (shown : Registry.standard.dispatch context = .ok primitive)
    (small : Text.lower context.element.tag = context.element.tag) :
    ∃ tag : Tag, tag.name = context.element.tag ∧ standard tag context = .ok primitive := by
  unfold Registry.dispatch at shown
  cases found : Tag.ofName? context.element.tag with
  | none =>
    rw [found] at shown
    cases shown
  | some tag =>
    rw [found] at shown
    exact ⟨tag, (name_eq_of_ofName? found).trans small, shown⟩

/-- **What is dispatched to the standard renderers** is one of the cases for the element's tag. -/
theorem rendered_of_dispatch (shown : Registry.standard.dispatch context = .ok primitive)
    (small : Text.lower context.element.tag = context.element.tag) :
    ∃ tag : Tag, tag.name = context.element.tag ∧ Rendered context tag primitive := by
  obtain ⟨tag, named, standard⟩ := exists_standard_of_dispatch shown small
  exact ⟨tag, named, rendered_of_standard standard⟩

end PagedHtml.Render
