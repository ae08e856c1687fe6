/-
**Which diagnostics a pass reports.**

The building of a content and the reading of style sheets report declarations and style sheet text,
and never an image. What a pass reports of images therefore is what acquiring them reports
(`filter_isImage_pass`).
-/

import PagedHtml.Proofs.Content.Building
import PagedHtml.Proofs.Image.Acquisition
import PagedHtml.Render.Pass

namespace PagedHtml

variable {α β : Type}

/-- Whether a diagnostic is about an image. -/
def Diagnostic.isImage (diagnostic : Diagnostic) : Bool :=
  match diagnostic.kind with
  | .imageUnavailable _ => true
  | .unsupportedProperty _ | .parseFailure _ => false

/-! ### Reports without images -/

namespace Reported

/-- That no image is reported. -/
def NamesNoImage (reported : Reported α) : Prop :=
  ∀ diagnostic ∈ reported.diagnostics, diagnostic.isImage = false

theorem NamesNoImage.pure (value : α) : (Pure.pure value : Reported α).NamesNoImage := nofun

theorem NamesNoImage.emit {diagnostic : Diagnostic} (other : diagnostic.isImage = false) :
    (Reported.emit diagnostic).NamesNoImage := by
  intro reported member
  rw [List.mem_singleton.mp member]
  exact other

theorem NamesNoImage.bind {first : Reported α} {next : α → Reported β} (here : first.NamesNoImage)
    (later : ∀ value, (next value).NamesNoImage) : (first >>= next).NamesNoImage :=
  List.forall_mem_append.mpr ⟨here, later first.value⟩

theorem NamesNoImage.foldlM {step : β → α → Reported β} {values : List α}
    (each : ∀ state value, (step state value).NamesNoImage) (state : β) :
    (values.foldlM step state).NamesNoImage := by
  induction values generalizing state with
  | nil => exact .pure state
  | cons value rest ih =>
    rw [List.foldlM_cons]
    exact (each state value).bind ih

theorem NamesNoImage.mapM {step : α → Reported β} {values : List α}
    (each : ∀ value, (step value).NamesNoImage) : (values.mapM step).NamesNoImage := by
  induction values with
  | nil => exact .pure []
  | cons value rest ih =>
    rw [List.mapM_cons]
    exact (each value).bind fun _ => ih.bind fun _ => .pure _

theorem NamesNoImage.filter_eq_nil {reported : Reported α} (without : reported.NamesNoImage) :
    reported.diagnostics.filter Diagnostic.isImage = [] := by
  rw [List.filter_eq_nil_iff]
  intro diagnostic member
  rw [without diagnostic member]
  exact nofun

end Reported

open Reported (NamesNoImage)

/-! ### Style sheets -/

namespace Style

theorem namesNoImage_addDeclaration (source : String) (style : Map)
    (declaration : Css.Declaration) : (addDeclaration source style declaration).NamesNoImage := by
  unfold addDeclaration
  simp only
  split
  · exact .pure style
  · split
    · exact .pure _
    · exact (NamesNoImage.emit rfl).bind fun _ => .pure style

theorem namesNoImage_ofDeclarations (source : String) (declarations : List Css.Declaration) :
    (ofDeclarations source declarations).NamesNoImage :=
  .foldlM (namesNoImage_addDeclaration source) Map.empty

theorem namesNoImage_ofText (text : String) : (Table.ofText text).NamesNoImage := by
  unfold Table.ofText
  split
  · exact .foldlM (fun _ _ => (namesNoImage_ofDeclarations _ _).bind fun _ => .pure _) Table.empty
  · exact (NamesNoImage.emit rfl).bind fun _ => .pure _

theorem namesNoImage_ofAttribute (text tag : String) : (Map.ofAttribute text tag).NamesNoImage := by
  unfold Map.ofAttribute
  split
  · exact namesNoImage_ofDeclarations tag _
  · exact (NamesNoImage.emit rfl).bind fun _ => .pure _

end Style

/-! ### Contents -/

theorem namesNoImage_run_bind {first : Building α} {next : α → Building β}
    (here : first.run.NamesNoImage) (later : ∀ value, (next value).run.NamesNoImage) :
    (first >>= next).run.NamesNoImage := by
  rw [ExceptT.run_bind]
  refine here.bind fun result => ?_
  cases result with
  | error failure => exact .pure _
  | ok value => exact later value

theorem namesNoImage_run_mapM {step : α → Building β} {values : List α}
    (each : ∀ value, (step value).run.NamesNoImage) : (values.mapM step).run.NamesNoImage := by
  induction values with
  | nil => exact .pure _
  | cons value rest ih =>
    rw [List.mapM_cons]
    exact namesNoImage_run_bind (each value) fun _ => namesNoImage_run_bind ih fun _ => .pure _

namespace Content

theorem namesNoImage_attributeStyle (data : Element) : (attributeStyle data).NamesNoImage := by
  unfold attributeStyle
  split
  · exact Style.namesNoImage_ofAttribute _ _
  · exact .pure _

theorem namesNoImage_elementStyle (computed : Option ComputedStyle) (id : Nat) (data : Element) :
    (elementStyle computed id data).run.NamesNoImage := by
  rw [run_elementStyle]
  exact namesNoImage_attributeStyle data

/-- **Building a content reports no image.** -/
theorem namesNoImage_convert (document : Document) (computed : Option ComputedStyle)
    (depth id : Nat) : (convert document computed depth id).run.NamesNoImage := by
  induction depth generalizing id with
  | zero => exact .pure _
  | succ depth ih =>
    rw [convert]
    split
    · exact .pure _
    · split
      · exact .pure _
      · exact .pure _
      · split
        · exact .pure _
        · exact namesNoImage_run_bind (namesNoImage_elementStyle computed id _) fun _ =>
            namesNoImage_run_bind (namesNoImage_run_mapM ih) fun _ => .pure _
      · exact .pure _

end Content

theorem namesNoImage_build (document : Document) (computed : Option ComputedStyle) (root : Nat) :
    (document.build computed root).run.NamesNoImage := by
  have sheets : (document.stylesheets root).NamesNoImage := .mapM Style.namesNoImage_ofText
  have lifted :
      (liftM (document.stylesheets root) : Building (List Style.Table)).run.NamesNoImage := by
    rw [Building.run_lift]
    exact sheets
  exact namesNoImage_run_bind lifted fun _ =>
    namesNoImage_run_bind (Content.namesNoImage_convert document computed _ root) fun _ => .pure _

namespace Render

theorem isImage_of_mem_acquireAll {acquirer : Acquirer} {sources : List String}
    {base : Option String} {diagnostic : Diagnostic}
    (member : diagnostic ∈ (Image.acquireAll acquirer sources base).diagnostics) :
    diagnostic.isImage = true := by
  rw [Image.diagnostics_acquireAll] at member
  obtain ⟨source, -, reported⟩ := List.mem_filterMap.mp member
  unfold Image.unavailable? at reported
  split at reported <;> cases reported
  rfl

/-- **What a pass reports of images is what acquiring them reports.** -/
theorem filter_isImage_pass {options : Options} {registry : Registry} {acquirer : Acquirer}
    {document : Document} {computed : Option ComputedStyle} {root : Nat}
    {sheets : List Style.Table} {content : Content}
    (built : (document.build computed root).outcome = .ok (sheets, content)) :
    (pass options registry acquirer document computed root).diagnostics.filter
        Diagnostic.isImage =
      (Image.acquireAll acquirer content.imageSources options.baseUrl).diagnostics := by
  have building := namesNoImage_build document computed root
  have optionSheets : (options.stylesheets.mapM Style.Table.ofText).NamesNoImage :=
    .mapM Style.namesNoImage_ofText
  rw [Building.outcome] at built
  rw [pass, Reported.diagnostics_bind, List.filter_append, building.filter_eq_nil, built]
  simp only [composeWith, Reported.diagnostics_bind, Reported.diagnostics_pure, List.append_nil,
    List.nil_append, List.filter_append, optionSheets.filter_eq_nil]
  exact List.filter_eq_self.mpr fun diagnostic => isImage_of_mem_acquireAll

end Render

end PagedHtml
