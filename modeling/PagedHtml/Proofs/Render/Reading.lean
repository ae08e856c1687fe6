/-
**What a rendering shows is what a reader of the content reads.**

`Content.reading` reads a content aloud: a text as it is, an item of a list behind its marker, and
nothing of what is not shown or shows something other than text. A pass with the standard renderers
moves, drops and adds blanks, and nothing else: the characters of its result that are not blank are
those of the reading, in order.

* `visible_arrange`: runs of text keep all that is visible, for those left out are blank;
* `visible_of_silent`, `visible_of_speaks`: what the standard renderer of each tag adds to the
  children of an element, or that it drops them;
* `visible_render`: by induction on the content, rendering shows what is read;
* `visible_pass`: the same for a pass over a document, whose content has its tags in small letters.
-/

import PagedHtml.Proofs.Content.Unfolding
import PagedHtml.Proofs.Render.Rendered
import PagedHtml.Proofs.Text.Collapsing
import PagedHtml.Proofs.Text.LetterCase
import PagedHtml.Render.Pass

namespace PagedHtml

/-! ### Reading -/

namespace Content

/-- The tags of elements of which nothing is read. -/
def silentTags : List String :=
  ["head", "title", "meta", "link", "style", "script", "noscript", "template", "br", "img", "svg"]

/-- What is read before an element in the element `parent`: before an item its number in a numbered
list, and a bullet anywhere else. -/
def marker (parent : Option StyledElement) (data : StyledElement) : String :=
  if data.tag = "li" then
    if parent.any fun above => above.tag = "ol" then toString (data.indexOfType + 1) ++ "."
    else "•"
  else ""

mutual

/-- **What is read** of content that stands in the element `parent`. -/
def reading (parent : Option StyledElement) : Content → String
  | text content => content
  | element data children =>
    if data.tag ∈ silentTags then "" else marker parent data ++ readingAll (some data) children

/-- What is read of several contents. -/
def readingAll (parent : Option StyledElement) : List Content → String
  | [] => ""
  | first :: rest => reading parent first ++ readingAll parent rest

end

end Content

namespace Render

open Primitive (textContentAll)
open Text (visible)

/-! ### Runs of text -/

theorem visible_of_isBlank {primitive : Primitive} (blank : isBlank primitive = true) :
    visible primitive.textContent = [] := by
  cases primitive with
  | literal text => exact Text.isBlankText_iff.mp blank
  | empty => rfl
  | view | text | link | image | vector => cases blank

/-- What is visible in primitives, one after another. -/
theorem visible_textContentAll (primitives : List Primitive) :
    visible (textContentAll primitives) =
      primitives.flatMap fun primitive => visible primitive.textContent := by
  induction primitives with
  | nil => rfl
  | cons primitive rest ih => rw [textContentAll, Text.visible_append, ih, List.flatMap_cons]

/-- **Arranging what is in an element keeps what is visible**, in order. -/
theorem visible_arrange (data : StyledElement) {children : List Content}
    {primitives : List Primitive} (long : primitives.length = children.length) :
    visible (textContentAll (Composer.arrange data children primitives)) =
      visible (textContentAll primitives) := by
  rw [visible_textContentAll, visible_textContentAll]
  exact flatMap_arrange visible_textContentAll long fun _ _ => visible_of_isBlank

theorem visible_literal (composer : Composer) (content : String) :
    visible (composer.literal content).textContent = visible content := by
  unfold Composer.literal
  split
  · exact Text.visible_collapse content
  · rfl

/-! ### The standard renderers -/

theorem mem_silentTags_iff (tag : Tag) :
    tag.name ∈ Content.silentTags ↔
      tag.category = .metadata ∨ tag = .lineBreak ∨ tag = .image ∨ tag = .vector := by
  cases tag <;> decide

theorem not_silent_of_isPlain {tag : Tag} (plain : IsPlain tag) :
    tag.name ∉ Content.silentTags := by
  obtain ⟨notMetadata, ordinary⟩ := plain
  rw [mem_silentTags_iff]
  rintro (isMetadata | rfl | rfl | rfl)
  · exact notMetadata isMetadata
  all_goals exact ordinary (by decide)

section

variable {context : Context} {tag : Tag} {primitive : Primitive}

/-- **Elements of which nothing is read show nothing visible.** -/
theorem visible_of_silent (rendered : Rendered context tag primitive)
    (silent : tag.name ∈ Content.silentTags) : visible primitive.textContent = [] := by
  cases rendered with
  | nothing | vector | picture | noPicture => rfl
  | lineBreak =>
    have blank : visible " " = [] := by decide
    simp [Primitive.unbreakable, Primitive.textContent, textContentAll, blank]
  | item => exact absurd silent (by decide)
  | view plain | text plain | link plain => exact absurd silent (not_silent_of_isPlain plain)

/-- **Any other elements show what is in them**, items behind their marker. -/
theorem visible_of_speaks (rendered : Rendered context tag primitive)
    (speaks : tag.name ∉ Content.silentTags) :
    ∃ children, context.children = .ok children ∧ visible primitive.textContent =
      visible (if tag = .listItem then marker context else "") ++
        visible (textContentAll children) := by
  cases rendered with
  | nothing isMetadata => exact absurd ((mem_silentTags_iff tag).mpr (.inl isMetadata)) speaks
  | lineBreak | vector | picture | noPicture => exact absurd (by decide) speaks
  | item known =>
    refine ⟨_, known, ?_⟩
    simp [Primitive.unbreakable, Primitive.container, Primitive.textContent, textContentAll]
  | view plain known | text plain known | link plain known =>
    have notItem : tag ≠ .listItem := by
      rintro rfl
      exact absurd plain (by decide)
    refine ⟨_, known, ?_⟩
    rw [if_neg notItem]
    rfl

end

/-! ### Tags in small letters -/

/-- That the tags of all elements are in small letters. -/
def HasSmallTags (elements : List StyledElement) : Prop :=
  ∀ data ∈ elements, Text.lower data.tag = data.tag

theorem eq_listItem_iff {tag : Tag} : tag = .listItem ↔ tag.name = "li" := by
  constructor
  · rintro rfl
    rfl
  · intro same
    have found := Tag.ofName?_name tag
    rw [same] at found
    exact (Option.some.inj (found.symm.trans (Tag.ofName?_name .listItem)))

/-- What stands before an item is what is read before it. -/
theorem lead_eq_marker {context : Context} {tag : Tag}
    (named : tag.name = context.element.tag) :
    (if tag = .listItem then marker context else "") =
      Content.marker context.parent? context.element := by
  unfold Content.marker
  rw [← named]
  by_cases item : tag = .listItem
  · rw [if_pos item, if_pos (eq_listItem_iff.mp item)]
    rfl
  · rw [if_neg item, if_neg fun same => item (eq_listItem_iff.mpr same)]

/-! ### The walk -/

/-- What is dispatched to a standard renderer shows what is read of an element, if its children
show what is read of them. -/
theorem visible_dispatch {context : Context} {primitive : Primitive} {children : List Content}
    (rendered : Registry.standard.dispatch context = .ok primitive)
    (small : Text.lower context.element.tag = context.element.tag)
    (inside : ∀ primitives, context.children = .ok primitives →
      visible (textContentAll primitives) =
        visible (Content.readingAll (some context.element) children)) :
    visible primitive.textContent =
      visible ((Content.element context.element children).reading context.parent?) := by
  obtain ⟨tag, named, rendered⟩ := rendered_of_dispatch rendered small
  rw [Content.reading, ← named]
  by_cases silent : tag.name ∈ Content.silentTags
  · rw [if_pos silent]
    exact visible_of_silent rendered silent
  · rw [if_neg silent, Text.visible_append]
    obtain ⟨primitives, known, shown⟩ := visible_of_speaks rendered silent
    simp only [shown, lead_eq_marker named, inside primitives known]

mutual

/-- **Rendering shows what is read.** -/
theorem visible_render {composer : Composer} (usual : composer.registry = Registry.standard)
    (rules : List StyleRule) (around : List StyledElement) (id : Nat) (content : Content)
    (small : HasSmallTags content.elements) {primitive : Primitive}
    (rendered : composer.render rules around id content = .ok primitive) :
    visible primitive.textContent = visible (content.reading around.head?) := by
  cases content with
  | text shown =>
    cases rendered
    exact visible_literal composer shown
  | element data children =>
    rw [Composer.render, usual] at rendered
    obtain ⟨here, below⟩ := List.forall_mem_cons.mp small
    have shows := @visible_dispatch _ primitive children rendered here
    refine shows fun primitives known => ?_
    obtain ⟨parts, done, rfl⟩ := map_eq_ok_iff.mp known
    rw [visible_arrange data (length_of_renderAll done),
      visible_renderAll usual rules (data :: around) (id + 1) children below done]
    rfl

/-- Rendering siblings shows what is read of them. -/
theorem visible_renderAll {composer : Composer} (usual : composer.registry = Registry.standard)
    (rules : List StyleRule) (around : List StyledElement) (id : Nat) (siblings : List Content)
    (small : HasSmallTags (Content.elementsAll siblings)) {primitives : List Primitive}
    (rendered : composer.renderAll rules around id siblings = .ok primitives) :
    visible (textContentAll primitives) =
      visible (Content.readingAll around.head? siblings) := by
  cases siblings with
  | nil =>
    cases rendered
    rfl
  | cons first rest =>
    obtain ⟨here, later⟩ := List.forall_mem_append.mp small
    obtain ⟨primitive, others, one, more, rfl⟩ := renderAll_cons_eq_ok_iff.mp rendered
    rw [textContentAll, Text.visible_append, visible_render usual rules around id first here one,
      visible_renderAll usual rules around (id + first.size) rest later more, Content.readingAll,
      Text.visible_append]

end

/-! ### Passes -/

theorem hasSmallTags_elementsAll {siblings : List Content}
    (each : ∀ content ∈ siblings, HasSmallTags content.elements) :
    HasSmallTags (Content.elementsAll siblings) := by
  induction siblings with
  | nil => exact nofun
  | cons first rest ih =>
    obtain ⟨here, later⟩ := List.forall_mem_cons.mp each
    exact List.forall_mem_append.mpr ⟨here, ih later⟩

theorem hasSmallTags_behind {content : Content} (small : HasSmallTags content.elements)
    (earlier : List Content) : HasSmallTags (content.behind earlier).elements := by
  cases content with
  | text shown => exact small
  | element data children =>
    obtain ⟨here, below⟩ := List.forall_mem_cons.mp small
    exact List.forall_mem_cons.mpr ⟨here, below⟩

/-- The content of a document has its tags in small letters. -/
theorem hasSmallTags_of_unfolds {document : Document} {computed : Option ComputedStyle} {id : Nat}
    {content : Content} (unfolds : document.Unfolds computed id content) :
    HasSmallTags content.elements := by
  induction unfolds with
  | text | comment | hidden => exact nofun
  | @element id node data style images found kind shown styled long each ih =>
    refine List.forall_mem_cons.mpr ⟨Text.lower_lower data.tag, hasSmallTags_elementsAll ?_⟩
    intro content member
    obtain ⟨place, listed⟩ := List.mem_iff_getElem?.mp member
    rw [List.getElem?_mapIdx, Option.map_eq_some_iff] at listed
    obtain ⟨image, resulted, rfl⟩ := listed
    have inside : place < node.children.length := by
      rw [← long]
      exact (List.getElem?_eq_some_iff.mp resulted).1
    exact hasSmallTags_behind
      (ih place _ image (List.getElem?_eq_getElem inside) resulted) _

theorem outcome_build (document : Document) (computed : Option ComputedStyle) (root : Nat) :
    (document.build computed root).outcome =
      (Content.ofDocument document computed root).outcome.map fun content =>
        ((document.stylesheets root).value, content) := by
  rw [Document.build, Building.outcome_bind, Building.outcome_lift, Except.bind,
    Building.outcome_bind]
  cases (Content.ofDocument document computed root).outcome <;> rfl

/-- What is built of a document has its content. -/
theorem ofDocument_of_build {document : Document} {computed : Option ComputedStyle} {root : Nat}
    {sheets : List Style.Table} {content : Content}
    (built : (document.build computed root).outcome = .ok (sheets, content)) :
    (Content.ofDocument document computed root).outcome = .ok content := by
  rw [outcome_build] at built
  obtain ⟨made, known, same⟩ := map_eq_ok_iff.mp built
  cases same
  exact known

/-- The content of a document has its tags in small letters. -/
theorem hasSmallTags_of_build {document : Document} {computed : Option ComputedStyle} {root : Nat}
    {sheets : List Style.Table} {content : Content}
    (built : (document.build computed root).outcome = .ok (sheets, content)) :
    HasSmallTags content.elements :=
  hasSmallTags_of_unfolds (ofDocument_eq_ok_iff.mp (ofDocument_of_build built))

/-- What a pass over a document whose content can be built comes to: the content, composed with the
images that are acquired for it. -/
theorem exists_composer {options : Options} {registry : Registry} {acquirer : Acquirer}
    {document : Document} {computed : Option ComputedStyle} {root : Nat}
    {sheets : List Style.Table} {content : Content}
    (built : (document.build computed root).outcome = .ok (sheets, content)) :
    ∃ composer : Composer, composer.registry = registry ∧
      composer.images =
        (Image.acquireAll acquirer content.imageSources options.baseUrl).value ∧
      (pass options registry acquirer document computed root).value =
        ((composer.compose content).map fun primitive =>
          Primitive.container [options.style] [primitive]).mapError .render := by
  rw [Building.outcome] at built
  rw [pass, Reported.value_bind, built]
  exact ⟨_, rfl, rfl, rfl⟩

/-- **A pass shows what is read of the content of a document.** -/
theorem visible_pass {options : Options} {acquirer : Acquirer} {document : Document}
    {computed : Option ComputedStyle} {root : Nat} {primitive : Primitive}
    (passed : (pass options Registry.standard acquirer document computed root).value =
      .ok primitive) :
    ∃ content, (Content.ofDocument document computed root).outcome = .ok content ∧
      visible primitive.textContent = visible (content.reading none) := by
  cases built : (document.build computed root).outcome with
  | error failure =>
    rw [Building.outcome] at built
    rw [pass, Reported.value_bind, built] at passed
    cases passed
  | ok parts =>
    have opened := built
    rw [outcome_build] at opened
    obtain ⟨content, made, rfl⟩ := map_eq_ok_iff.mp opened
    refine ⟨content, made, ?_⟩
    obtain ⟨composer, usual, -, composed⟩ := exists_composer built
    rw [composed] at passed
    cases inside : composer.compose content with
    | error failure =>
      rw [inside] at passed
      cases passed
    | ok whole =>
      rw [inside] at passed
      cases passed
      have small := hasSmallTags_of_unfolds (ofDocument_eq_ok_iff.mp made)
      have shown := visible_render usual composer.rules [] Outline.root content small inside
      rw [List.head?_nil] at shown
      rw [← shown]
      simp [Primitive.container, Primitive.textContent, textContentAll]

/-- An item of a numbered list, with blanks in its text, and a line break. -/
theorem visible_pass_item :
    let options : Options := { Options.default with resetStyles := true }
    let document : Document := ⟨#[⟨.document, none, [1]⟩, ⟨.element ⟨"OL", .empty⟩, some 0, [2]⟩,
      ⟨.element ⟨"li", .empty⟩, some 1, [3, 4]⟩, ⟨.text " a  b", some 2, []⟩,
      ⟨.element ⟨"br", .empty⟩, some 2, []⟩]⟩
    ∃ primitive, (pass options Registry.standard (fun _ => .error .emptySource) document none
        1).value = .ok primitive ∧ visible primitive.textContent = ['1', '.', 'a', 'b'] := by
  intro options document
  have succeeds : (pass options Registry.standard (fun _ => .error .emptySource) document none
      1).value.toOption.isSome = true := by decide +kernel
  cases passed : (pass options Registry.standard (fun _ => .error .emptySource) document none
      1).value with
  | error failure =>
    rw [passed] at succeeds
    cases succeeds
  | ok primitive =>
    obtain ⟨content, built, shown⟩ := visible_pass passed
    have known : (Content.ofDocument document none 1).outcome = .ok (.element
        ⟨"ol", .empty, .empty, 0⟩ [.element ⟨"li", .empty, .empty, 0⟩
          [.text " a  b", .element ⟨"br", .empty, .empty, 0⟩ []]]) := rfl
    rw [known] at built
    cases built
    refine ⟨primitive, rfl, ?_⟩
    rw [shown]
    decide

end Render

end PagedHtml
