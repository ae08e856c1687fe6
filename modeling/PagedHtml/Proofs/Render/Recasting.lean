/-
**Renderings that differ only in their styles, or only in the blanks of their texts.**

A recasting changes all style lists and literal texts of a primitive and leaves the rest of it
(`Primitive.recast`). If two compositions give styles and texts that two recastings take to the
same, the recast renderings are the same (`recast_render`): no standard renderer looks at the
styles that apply, and a run of text is left out by blanks alone, which a recasting has to keep
(`Recasting.Lawful`).

* `recast_standard`: each standard renderer, on two contexts that are alike;
* `unstyled_pass`: with all styles taken out, the style sheets, the default styles and the style of
  the options make no difference;
* `collapsed_pass`: a pass that collapses blanks is one that does not, with its literals collapsed.
-/

import PagedHtml.Proofs.Content.Building
import PagedHtml.Proofs.Text.Collapsing
import PagedHtml.Proofs.Text.LetterCase
import PagedHtml.Render.Pass

namespace PagedHtml

/-! ### Recast primitives -/

/-- What is done to the style lists of primitives and to the literal texts in them. -/
structure Recasting where
  styles : List Style.Map → List Style.Map
  text : String → String

namespace Primitive

mutual

/-- A primitive with all style lists and literal texts in it changed. -/
def recast (change : Recasting) : Primitive → Primitive
  | empty => empty
  | view style wrap children => view (change.styles style) wrap (recastAll change children)
  | text style children => text (change.styles style) (recastAll change children)
  | literal content => literal (change.text content)
  | link style target children => link (change.styles style) target (recastAll change children)
  | image style source => image (change.styles style) source
  | vector style shapes => vector (change.styles style) shapes

def recastAll (change : Recasting) : List Primitive → List Primitive
  | [] => []
  | first :: rest => recast change first :: recastAll change rest

end

theorem recastAll_eq_map (change : Recasting) (primitives : List Primitive) :
    recastAll change primitives = primitives.map (recast change) := by
  induction primitives with
  | nil => rfl
  | cons first rest ih => rw [recastAll, ih, List.map_cons]

end Primitive

namespace Recasting

/-- The recasting that changes nothing. -/
def same : Recasting := ⟨id, id⟩

/-- The recasting that empties all style lists. -/
def unstyling : Recasting := ⟨fun _ => [], id⟩

/-- The recasting that collapses the blanks of all literals. -/
def collapsing : Recasting := ⟨id, Text.collapse⟩

end Recasting

namespace Primitive

/-- A primitive with all its style lists empty. -/
def unstyled : Primitive → Primitive := recast .unstyling

/-- A primitive with the blanks of all its literals collapsed. -/
def collapsed : Primitive → Primitive := recast .collapsing

mutual

theorem recast_same (primitive : Primitive) : primitive.recast .same = primitive := by
  cases primitive with
  | empty | literal | image | vector => rfl
  | view style wrap children => exact congrArg _ (recastAll_same children)
  | text style children => exact congrArg _ (recastAll_same children)
  | link style target children => exact congrArg _ (recastAll_same children)

theorem recastAll_same (primitives : List Primitive) : recastAll .same primitives = primitives := by
  cases primitives with
  | nil => rfl
  | cons first rest => rw [recastAll, recast_same first, recastAll_same rest]

end

end Primitive

namespace Recasting

/-- That a text is none that a recasting may change: the blank of a line break, or one without
blanks. -/
def IsFirm (text : String) : Prop := text = " " ∨ ∀ c ∈ text.toList, Text.isBlank c = false

/-- **What a recasting has to keep** for renderings to go on as before. -/
structure Lawful (change : Recasting) : Prop where
  styles_nil : change.styles [] = []
  styles_append : ∀ first second,
    change.styles (first ++ second) = change.styles first ++ change.styles second
  isBlankText : ∀ text, Text.isBlankText (change.text text) = Text.isBlankText text
  firm : ∀ text, IsFirm text → change.text text = text

theorem lawful_same : same.Lawful := ⟨rfl, fun _ _ => rfl, fun _ => rfl, fun _ _ => rfl⟩

theorem lawful_unstyling : unstyling.Lawful := ⟨rfl, fun _ _ => rfl, fun _ => rfl, fun _ _ => rfl⟩

end Recasting

/-! ### Recastings of texts -/

namespace Recasting

theorem lawful_collapsing : collapsing.Lawful := by
  refine ⟨rfl, fun _ _ => rfl, Text.isBlankText_collapse, fun text firm => ?_⟩
  rcases firm with rfl | visible
  · rfl
  · show Text.collapse text = text
    rw [Text.collapse, Text.collapseChars_eq_self_iff.mpr (Text.isCollapsed_of_visible visible),
      String.ofList_toList]

/-- What stands before a list item has no blanks. -/
theorem isFirm_marker (context : Render.Context) : IsFirm (Render.marker context) := by
  refine .inr fun c member => ?_
  unfold Render.marker at member
  split at member
  · rw [String.toList_append, List.mem_append, Nat.toString_eq_repr, Nat.toList_repr] at member
    rcases member with digit | point
    · have number := Nat.isDigit_of_mem_toDigits (by decide) (by decide) digit
      exact Text.isBlank_of_isAlphanum (by rw [Char.isAlphanum, number, Bool.or_true])
    · rw [List.mem_singleton.mp point]
      rfl
  · rw [List.mem_singleton.mp member]
    rfl

end Recasting

namespace Render

open Primitive (recast recastAll)

/-! ### Runs of text -/

section

variable {change : Recasting} (lawful : change.Lawful)

include lawful

theorem isBlank_recast (primitive : Primitive) :
    isBlank (primitive.recast change) = isBlank primitive := by
  cases primitive with
  | literal text => exact lawful.isBlankText text
  | empty | view | text | link | image | vector => rfl

theorem recastAll_runOf (run : List Primitive) :
    recastAll change (runOf run) = runOf (recastAll change run) := by
  have blank : (recastAll change run).all isBlank = run.all isBlank := by
    rw [Primitive.recastAll_eq_map, List.all_map]
    exact congrArg _ (funext (isBlank_recast lawful))
  rw [runOf, runOf, blank]
  split
  · rfl
  · rw [recastAll, recastAll, recast, lawful.styles_nil]

theorem recastAll_bundleFrom (run : List Primitive) (primitives : List (Bool × Primitive)) :
    recastAll change (bundleFrom run primitives) =
      bundleFrom (recastAll change run) (primitives.map (Prod.map id (recast change))) := by
  induction primitives generalizing run with
  | nil => exact recastAll_runOf lawful run
  | cons next rest ih =>
    obtain ⟨isInline, primitive⟩ := next
    cases isInline with
    | true =>
      have longer : recastAll change (run ++ [primitive]) =
          recastAll change run ++ [primitive.recast change] := by
        rw [Primitive.recastAll_eq_map, Primitive.recastAll_eq_map, List.map_append]
        rfl
      rw [bundleFrom, ih, longer]
      rfl
    | false =>
      have ended : recastAll change (runOf run ++ primitive :: bundleFrom [] rest) =
          recastAll change (runOf run) ++
            primitive.recast change :: recastAll change (bundleFrom [] rest) := by
        simp only [Primitive.recastAll_eq_map, List.map_append, List.map_cons]
      rw [bundleFrom, ended, recastAll_runOf lawful, ih]
      rfl

/-- **What is in an element is arranged alike**, whatever the styles and the blanks of texts. -/
theorem recastAll_arrange (data : StyledElement) (children : List Content)
    (primitives : List Primitive) :
    recastAll change (Composer.arrange data children primitives) =
      Composer.arrange data children (recastAll change primitives) := by
  unfold Composer.arrange
  split
  · rfl
  · rw [bundle, bundle, recastAll_bundleFrom lawful, recastAll, Primitive.recastAll_eq_map,
      List.zip_map_right]

end

/-! ### The standard renderers -/

section

variable {first second : Recasting} {one other : Context}

/-- **That two contexts are alike**: they have the same element among the same elements, the same
images, and styles and children that the two recastings take to the same. -/
structure Context.Alike (first second : Recasting) (one other : Context) : Prop where
  element : one.element = other.element
  around : one.around = other.around
  images : one.images = other.images
  style : first.styles one.style = second.styles other.style
  children : one.children.map (recastAll first) = other.children.map (recastAll second)

/-- What is made of the children of an element, recast, is made of the recast children. -/
theorem recast_made {change : Recasting} {make shape : List Primitive → Primitive}
    (makes : ∀ children, (make children).recast change = shape (recastAll change children))
    (rendered : Except RenderError (List Primitive)) :
    (do return make (← rendered) : Except RenderError Primitive).map (recast change) =
      (rendered.map (recastAll change)).map shape := by
  cases rendered with
  | error failure => rfl
  | ok children => exact congrArg Except.ok (makes children)

/-- Renderers that make the same of the children of an element, up to recasting, are alike. -/
theorem recast_make (alike : one.Alike first second other)
    {make remake : List Primitive → Primitive} (shape : List Primitive → Primitive)
    (makes : ∀ children, (make children).recast first = shape (recastAll first children))
    (remakes : ∀ children, (remake children).recast second = shape (recastAll second children)) :
    (do return make (← one.children) : Except RenderError Primitive).map (recast first) =
      (do return remake (← other.children) : Except RenderError Primitive).map (recast second) := by
  rw [recast_made makes, recast_made remakes, alike.children]

variable (lawful : first.Lawful) (lawful' : second.Lawful)

include lawful lawful'

theorem recast_lineBreak (alike : one.Alike first second other) :
    (lineBreak one).map (recast first) = (lineBreak other).map (recast second) := by
  have firm : Recasting.IsFirm " " := .inl rfl
  simp only [lineBreak, Except.map, Primitive.unbreakable, recast, recastAll, lawful.styles_nil,
    lawful'.styles_nil, lawful.firm _ firm, lawful'.firm _ firm, alike.style]

theorem recast_listItem (alike : one.Alike first second other) :
    (listItem one).map (recast first) = (listItem other).map (recast second) := by
  have same : marker one = marker other := by
    unfold marker Context.parent?
    rw [alike.element, alike.around]
  have firm := Recasting.isFirm_marker other
  refine recast_make alike
    (fun children => .unbreakable (second.styles other.style)
      [.container [] [.text [] [.literal (marker other)]], .text [] children])
    (fun children => ?_) fun children => ?_
  · simp only [Primitive.unbreakable, Primitive.container, recast, recastAll, lawful.styles_nil,
      same, lawful.firm _ firm, alike.style]
  · simp only [Primitive.unbreakable, Primitive.container, recast, recastAll, lawful'.styles_nil,
      lawful'.firm _ firm]

omit lawful lawful' in
theorem recast_image (alike : one.Alike first second other) :
    (image one).map (recast first) = (image other).map (recast second) := by
  simp only [image, alike.element, alike.images]
  split
  · exact congrArg (fun style => Except.ok (Primitive.image style _)) alike.style
  · split
    · exact congrArg (fun style => Except.ok (Primitive.image style _)) alike.style
    · rfl

/-- Styles that a renderer puts before and after those that apply are the same in both. -/
theorem styles_cons_append (styled : first.styles = second.styles)
    (alike : one.Alike first second other) (before after : List Style.Map) :
    first.styles (before ++ one.style ++ after) =
      second.styles (before ++ other.style ++ after) := by
  rw [lawful.styles_append, lawful.styles_append, lawful'.styles_append, lawful'.styles_append,
    alike.style, styled]

theorem recast_table (styled : first.styles = second.styles)
    (alike : one.Alike first second other) :
    (table one).map (recast first) = (table other).map (recast second) := by
  simp only [table, alike.element]
  generalize (if separatesCells other.element.style then Style.Map.empty else _) = overrides
  refine recast_make alike
    (.container (second.styles (other.style ++ [overrides]))) (fun children => ?_)
    fun _ => rfl
  have same := styles_cons_append lawful lawful' styled alike [] [overrides]
  exact congrArg (Primitive.container · _) same

theorem recast_cell (styled : first.styles = second.styles)
    (alike : one.Alike first second other) :
    (cell one).map (recast first) = (cell other).map (recast second) := by
  simp only [cell, alike.element, alike.around]
  split
  · rfl
  · next table _ =>
    generalize cellBase table.style (other.element.indexOfType == 0) = base
    refine recast_make alike
      (.container (second.styles (base :: other.style ++ [spanStyle other.element])))
      (fun children => ?_) fun _ => rfl
    have same := styles_cons_append lawful lawful' styled alike [base] [spanStyle other.element]
    exact congrArg (Primitive.container · _) same

/-- **The standard renderers make the same of contexts that are alike**, up to recasting. -/
theorem recast_standard (styled : first.styles = second.styles) (tag : Tag)
    (alike : one.Alike first second other) :
    (standard tag one).map (recast first) = (standard tag other).map (recast second) := by
  have blocks : (block one).map (recast first) = (block other).map (recast second) :=
    recast_make alike (.container (second.styles other.style))
      (fun _ => congrArg (Primitive.container · _) alike.style) fun _ => rfl
  unfold standard
  split
  · unfold link
    rw [alike.element]
    exact recast_make alike (.link (second.styles other.style) _)
      (fun _ => congrArg (Primitive.link · _ _) alike.style) fun _ => rfl
  · exact recast_lineBreak lawful lawful' alike
  · exact recast_listItem lawful lawful' alike
  · exact recast_image alike
  · exact congrArg (fun style => Except.ok (Primitive.vector style _)) alike.style
  · exact recast_table lawful lawful' styled alike
  · exact recast_make alike (.unbreakable (second.styles other.style))
      (fun _ => congrArg (Primitive.unbreakable · _) alike.style) fun _ => rfl
  · exact recast_cell lawful lawful' styled alike
  · exact recast_cell lawful lawful' styled alike
  · cases tag.category with
    | metadata => rfl
    | inline =>
      exact recast_make alike (.text (second.styles other.style))
        (fun _ => congrArg (Primitive.text · _) alike.style) fun _ => rfl
    | block | special => exact blocks

theorem recast_dispatch (styled : first.styles = second.styles)
    (alike : one.Alike first second other) :
    (Registry.standard.dispatch one).map (recast first) =
      (Registry.standard.dispatch other).map (recast second) := by
  unfold Registry.dispatch
  rw [alike.element]
  cases Tag.ofName? other.element.tag with
  | none => rfl
  | some tag => exact recast_standard lawful lawful' styled tag alike

end

/-! ### The walk -/

/-- **That two compositions are alike**: both use the standard renderers and the same images, and
give styles and texts that the two recastings take to the same. -/
structure Composer.Alike (first second : Recasting) (one other : Composer)
    (rules rules' : List StyleRule) : Prop where
  standard : one.registry = Registry.standard
  standard' : other.registry = Registry.standard
  images : one.images = other.images
  cascade : ∀ data around, first.styles (one.cascade rules data around) =
    second.styles (other.cascade rules' data around)
  literal : ∀ content,
    (one.literal content).recast first = (other.literal content).recast second

section

variable {first second : Recasting} {one other : Composer} {rules rules' : List StyleRule}

theorem map_recastAll_arrange {change : Recasting} (lawful : change.Lawful) (data : StyledElement)
    (children : List Content) (rendered : Except RenderError (List Primitive)) :
    (rendered.map (Composer.arrange data children)).map (recastAll change) =
      (rendered.map (recastAll change)).map (Composer.arrange data children) := by
  cases rendered with
  | error failure => rfl
  | ok primitives => exact congrArg Except.ok (recastAll_arrange lawful data children primitives)

theorem map_recastAll_cons (change : Recasting) (rendered : Except RenderError Primitive)
    (others : Except RenderError (List Primitive)) :
    (do return (← rendered) :: (← others) : Except RenderError (List Primitive)).map
        (recastAll change) =
      do return (← rendered.map (recast change)) :: (← others.map (recastAll change)) := by
  cases rendered with
  | error failure => rfl
  | ok primitive => cases others <;> rfl

mutual

/-- **Compositions that are alike render the same**, up to recasting. -/
theorem recast_render (lawful : first.Lawful) (lawful' : second.Lawful)
    (styled : first.styles = second.styles) (alike : one.Alike first second other rules rules')
    (around : List StyledElement) (id : Nat) (content : Content) :
    (one.render rules around id content).map (recast first) =
      (other.render rules' around id content).map (recast second) := by
  cases content with
  | text content => exact congrArg Except.ok (alike.literal content)
  | element data children =>
    rw [Composer.render, Composer.render, alike.standard, alike.standard']
    refine recast_dispatch lawful lawful' styled
      ⟨rfl, rfl, alike.images, alike.cascade data around, ?_⟩
    have inside := recast_renderAll lawful lawful' styled alike (data :: around) (id + 1) children
    simp only [Composer.contextOf]
    rw [map_recastAll_arrange lawful, map_recastAll_arrange lawful', inside]

/-- Siblings are rendered the same. -/
theorem recast_renderAll (lawful : first.Lawful) (lawful' : second.Lawful)
    (styled : first.styles = second.styles) (alike : one.Alike first second other rules rules')
    (around : List StyledElement) (id : Nat) (siblings : List Content) :
    (one.renderAll rules around id siblings).map (recastAll first) =
      (other.renderAll rules' around id siblings).map (recastAll second) := by
  cases siblings with
  | nil => rfl
  | cons content rest =>
    rw [Composer.renderAll, Composer.renderAll, map_recastAll_cons, map_recastAll_cons,
      recast_render lawful lawful' styled alike around id content,
      recast_renderAll lawful lawful' styled alike around (id + content.size) rest]

end

end

/-! ### Passes -/

/-- The composer of a pass over a document with some style sheets and some content. -/
def composerOf (options : Options) (acquirer : Acquirer) (sheets : List Style.Table)
    (content : Content) : Composer where
  registry := Registry.standard
  outline := content.outline
  collapseWhitespace := options.collapseWhitespace
  resetStyles := options.resetStyles
  stylesheets := (options.stylesheets.mapM Style.Table.ofText).value ++ sheets
  images := (Image.acquireAll acquirer content.imageSources options.baseUrl).value

section

variable {options other : Options} {acquirer : Acquirer} {document : Document}
  {computed : Option ComputedStyle} {root : Nat}

/-- A pass over a document whose content can be built composes it. -/
theorem value_pass_of_build {sheets : List Style.Table} {content : Content}
    (built : (document.build computed root).outcome = .ok (sheets, content)) :
    (pass options Registry.standard acquirer document computed root).value =
      (((composerOf options acquirer sheets content).compose content).map fun primitive =>
        Primitive.container [options.style] [primitive]).mapError .render := by
  rw [Building.outcome] at built
  rw [pass, Reported.value_bind, built]
  rfl

/-- A pass over any other document fails as the building does, whatever the options. -/
theorem value_pass_of_error {failure : BuildError}
    (failed : (document.build computed root).outcome = .error failure) :
    (pass options Registry.standard acquirer document computed root).value =
      .error (.build failure) := by
  rw [Building.outcome] at failed
  rw [pass, Reported.value_bind, failed]
  rfl

/-- **Passes whose compositions are alike come to the same**, up to recasting. -/
theorem recast_pass {first second : Recasting} (lawful : first.Lawful) (lawful' : second.Lawful)
    (styled : first.styles = second.styles)
    (outer : first.styles [options.style] = second.styles [other.style])
    (alike : ∀ sheets content, (document.build computed root).outcome = .ok (sheets, content) →
      (composerOf options acquirer sheets content).Alike first second
        (composerOf other acquirer sheets content)
        (composerOf options acquirer sheets content).rules
        (composerOf other acquirer sheets content).rules) :
    (pass options Registry.standard acquirer document computed root).value.map (recast first) =
      (pass other Registry.standard acquirer document computed root).value.map (recast second) := by
  cases built : (document.build computed root).outcome with
  | error failure =>
    rw [value_pass_of_error built, value_pass_of_error built]
    rfl
  | ok parts =>
    obtain ⟨sheets, content⟩ := parts
    have inside := recast_render lawful lawful' styled (alike sheets content built) []
      Outline.root content
    have wrap (change : Recasting) (style : Style.Map)
        (composed : Except RenderError Primitive) :
        ((composed.map fun primitive => Primitive.container [style] [primitive]).mapError
            PassError.render).map (recast change) =
          ((composed.map (recast change)).map fun primitive =>
            Primitive.container (change.styles [style]) [primitive]).mapError .render := by
      cases composed <;> rfl
    rw [value_pass_of_build built, value_pass_of_build built, wrap, wrap, outer, Composer.compose,
      Composer.compose, inside]

/-- **Styles change nothing but styles**: if two options agree on the blanks of texts and on the
base of references, the passes with them fail with the same error, or come to primitives that are
the same once all styles are taken out. -/
theorem unstyled_pass (sameBlanks : options.collapseWhitespace = other.collapseWhitespace)
    (sameBase : options.baseUrl = other.baseUrl) :
    (pass options Registry.standard acquirer document computed root).value.map
        Primitive.unstyled =
      (pass other Registry.standard acquirer document computed root).value.map
        Primitive.unstyled := by
  refine recast_pass Recasting.lawful_unstyling Recasting.lawful_unstyling rfl rfl
    fun sheets content built => ⟨rfl, rfl, ?_, fun _ _ => rfl, fun text => ?_⟩
  · rw [composerOf, composerOf, sameBase]
  · rw [Composer.literal, Composer.literal, composerOf, composerOf, sameBlanks]

end

/-- A paragraph that one of the options gives a color, in a container with another one. -/
theorem unstyled_pass_paragraph :
    let options : Options := { Options.default with
      stylesheets := ["p\x7bcolor:red\x7d"], style := Style.Map.empty.insert .color (.text "blue") }
    let other : Options := { Options.default with resetStyles := true }
    let document : Document := ⟨#[⟨.element ⟨"p", .empty⟩, none, [1]⟩, ⟨.text " a  b", some 0, []⟩]⟩
    let acquirer : Acquirer := fun _ => .error .emptySource
    options.collapseWhitespace = other.collapseWhitespace ∧ options.baseUrl = other.baseUrl ∧
      (pass options Registry.standard acquirer document none 0).value.toOption.isSome = true ∧
      (pass options Registry.standard acquirer document none 0).value.map Primitive.unstyled =
        (pass other Registry.standard acquirer document none 0).value.map Primitive.unstyled := by
  intro options other document acquirer
  exact ⟨rfl, rfl, by decide +kernel, unstyled_pass rfl rfl⟩

/-- **Collapsing blanks commutes with rendering**: a pass that collapses blanks fails with the error
of the pass that does not, or comes to its primitive with all literals collapsed. -/
theorem collapsed_pass (options : Options) (acquirer : Acquirer) (document : Document)
    (computed : Option ComputedStyle) (root : Nat) :
    (pass { options with collapseWhitespace := true } Registry.standard acquirer document computed
        root).value =
      (pass { options with collapseWhitespace := false } Registry.standard acquirer document
        computed root).value.map Primitive.collapsed := by
  have recast_eq := @recast_pass { options with collapseWhitespace := true }
    { options with collapseWhitespace := false } acquirer document computed root
    .same .collapsing Recasting.lawful_same Recasting.lawful_collapsing rfl rfl
    fun _ _ _ => ⟨rfl, rfl, rfl, fun _ _ => rfl, fun _ => rfl⟩
  have same_eq : recast .same = id := funext Primitive.recast_same
  rw [same_eq, Except.map_id] at recast_eq
  exact recast_eq

end Render

end PagedHtml
