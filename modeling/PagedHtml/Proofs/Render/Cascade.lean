/-
**The cascade: what each property of a rendered element comes to.**

The value of a property is that of the element's own style, or else that of the last entry of the
style sheets that is for the element and sets the property, or else that of the default style of its
tag, unless default styles are left out (`Effective`). Style sheets of the options come before those
of the document, and the entries of a style sheet in their order.

* `get?_merged_cascade_iff`: this is what the styles that apply to an element come to;
* `gathers_styles`: a rendering gives each element that it shows the styles that apply to it, and a
  table or a cell further ones before or behind them;
* `pass_styles`: the styles in the result of a pass, and what they come to.
-/

import PagedHtml.Proofs.Folding
import PagedHtml.Proofs.Render.Pictures

namespace PagedHtml

/-! ### Styles laid over each other -/

/-- Of styles laid over each other, the last one that sets a property counts. -/
theorem Style.Map.get?_merged (styles : List Style.Map) (property : Style.Property) :
    (merged styles).get? property = styles.reverse.findSome? fun style => style.get? property := by
  have merges (style above : Style.Map) := get?_merge style above property
  exact (observe_foldl (fun style : Style.Map => style.get? property) merges styles empty).trans
    Option.or_none

namespace Render

/-- **That an entry of a style sheet is for an element**: its selector is one that is known, and
matches the element. -/
def Applies (outline : Outline) (id : Nat) (entry : String × Style.Map) : Prop :=
  ∃ selector, Selector.parse? entry.1 = some selector ∧ id ∈ selector.matchesIn outline

/-- **What a property of an element comes to**: its own value, or that of the last entry that is for
it and sets the property, or the default of its tag unless defaults are left out, or nothing. -/
inductive Effective (reset : Bool) (entries : List (String × Style.Map)) (outline : Outline)
    (id : Nat) (data : StyledElement) (property : Style.Property) : Option Style.Value → Prop
  | own {value : Style.Value} (set : data.style.get? property = some value) :
      Effective reset entries outline id data property (some value)
  | rule {value : Style.Value} {before after : List (String × Style.Map)}
      {entry : String × Style.Map} (free : data.style.get? property = none)
      (split : entries = before ++ entry :: after) (applies : Applies outline id entry)
      (set : entry.2.get? property = some value)
      (last : ∀ later ∈ after, Applies outline id later → later.2.get? property = none) :
      Effective reset entries outline id data property (some value)
  | default {value : Style.Value} {style : Style.Map} (free : data.style.get? property = none)
      (unruled : ∀ entry ∈ entries, Applies outline id entry → entry.2.get? property = none)
      (kept : reset = false) (known : Style.Default.style? data.tag = some style)
      (set : style.get? property = some value) :
      Effective reset entries outline id data property (some value)
  | nothing (free : data.style.get? property = none)
      (unruled : ∀ entry ∈ entries, Applies outline id entry → entry.2.get? property = none)
      (undefaulted : reset = false → ∀ style, Style.Default.style? data.tag = some style →
        style.get? property = none) :
      Effective reset entries outline id data property none

/-! ### The styles that apply -/

theorem findSome?_map_filter {α β γ : Type} (keep : α → Bool) (f : α → β) (find : β → Option γ)
    (list : List α) : ((list.filter keep).map f).findSome? find =
      list.findSome? fun a => if keep a then find (f a) else none := by
  induction list with
  | nil => rfl
  | cons a rest ih =>
    by_cases kept : keep a = true
    · rw [List.filter_cons_of_pos kept, List.map_cons, List.findSome?_cons, List.findSome?_cons, ih,
        if_pos kept]
    · rw [List.filter_cons_of_neg kept, ih, List.findSome?_cons, if_neg kept]

section

variable {composer : Composer} {outline : Outline} {id : Nat} {data : StyledElement}

/-- An entry is for an element if its rule is. -/
theorem applies_iff (tree : outline.IsTree) (known : outline.element? id = some data)
    {entry : String × Style.Map} :
    Applies outline id entry ↔ ((Selector.parse? entry.1).any fun selector =>
      selector.matchesChain (data :: outline.above id)) = true := by
  have inside := Outline.lt_size_of_element? known
  rw [Option.any_eq_true]
  refine exists_congr fun selector => and_congr_right fun _ => ?_
  rw [Selector.matchesIn, List.mem_filter, List.mem_range, tree.chain_eq, known]
  exact and_iff_right inside

/-- The value that the last entry for an element sets, if there is one. -/
def ruled? (composer : Composer) (outline : Outline) (id : Nat) (data : StyledElement)
    (property : Style.Property) : Option Style.Value :=
  (composer.stylesheets.flatMap Keyed.entries).reverse.findSome? fun entry =>
    if (Selector.parse? entry.1).any fun selector =>
      selector.matchesChain (data :: outline.above id) then entry.2.get? property else none

/-- The value of the default style of a tag, unless default styles are left out. -/
def default? (composer : Composer) (data : StyledElement) (property : Style.Property) :
    Option Style.Value :=
  if composer.resetStyles then none
  else (Style.Default.style? data.tag).bind fun style => style.get? property

theorem rules_eq (composer : Composer) :
    composer.rules = (composer.stylesheets.flatMap Keyed.entries).map fun entry =>
      (Selector.parse? entry.1, entry.2) := by
  rw [Composer.rules, List.map_flatMap]

theorem findSome?_matching (property : Style.Property) :
    (Composer.matching composer.rules (data :: outline.above id)).reverse.findSome?
        (fun style => style.get? property) = ruled? composer outline id data property := by
  rw [Composer.matching, ← List.map_reverse, ← List.filter_reverse, findSome?_map_filter, rules_eq,
    ← List.map_reverse, List.findSome?_map]
  rfl

theorem findSome?_defaults (property : Style.Property) :
    (if composer.resetStyles then [] else (Style.Default.style? data.tag).toList).reverse.findSome?
        (fun style => style.get? property) = default? composer data property := by
  unfold default?
  split
  · rfl
  · cases Style.Default.style? data.tag with
    | none => rfl
    | some style => exact List.findSome?_singleton

/-- The element's own value counts before those of rules, and they before the default. -/
theorem get?_merged_cascade (property : Style.Property) :
    (Style.Map.merged (composer.cascade composer.rules data (outline.above id))).get? property =
      (data.style.get? property).or
        ((ruled? composer outline id data property).or (default? composer data property)) := by
  rw [Style.Map.get?_merged, Composer.cascade, List.reverse_append, List.reverse_append,
    List.findSome?_append, List.findSome?_append, findSome?_matching, findSome?_defaults,
    List.reverse_singleton, List.findSome?_singleton]

theorem ruled?_eq_some_iff (tree : outline.IsTree) (known : outline.element? id = some data)
    {property : Style.Property} {value : Style.Value} :
    ruled? composer outline id data property = some value ↔
      ∃ before entry after, composer.stylesheets.flatMap Keyed.entries = before ++ entry :: after ∧
        (Applies outline id entry ∧ entry.2.get? property = some value) ∧
        ∀ later ∈ after, Applies outline id later → later.2.get? property = none := by
  rw [ruled?, findSome?_reverse_eq_some_iff]
  simp only [Option.ite_none_right_eq_some, applies_iff tree known, ite_eq_right_iff]

theorem ruled?_eq_none_iff (tree : outline.IsTree) (known : outline.element? id = some data)
    {property : Style.Property} :
    ruled? composer outline id data property = none ↔
      ∀ entry ∈ composer.stylesheets.flatMap Keyed.entries, Applies outline id entry →
        entry.2.get? property = none := by
  rw [ruled?, List.findSome?_eq_none_iff]
  simp only [List.mem_reverse, applies_iff tree known, ite_eq_right_iff]

theorem default?_eq_some_iff {property : Style.Property} {value : Style.Value} :
    default? composer data property = some value ↔
      composer.resetStyles = false ∧ ∃ style, Style.Default.style? data.tag = some style ∧
        style.get? property = some value := by
  rw [default?, Option.ite_none_left_eq_some, Bool.not_eq_true, Option.bind_eq_some_iff]

theorem default?_eq_none_iff {property : Style.Property} :
    default? composer data property = none ↔
      (composer.resetStyles = false → ∀ style, Style.Default.style? data.tag = some style →
        style.get? property = none) := by
  rw [default?, ite_eq_left_iff, Bool.not_eq_true]
  simp only [Option.bind_eq_none_iff]

/-- **What the styles that apply to an element come to** is what is effective. -/
theorem get?_merged_cascade_iff (tree : outline.IsTree) (known : outline.element? id = some data)
    {property : Style.Property} {value : Option Style.Value} :
    (Style.Map.merged (composer.cascade composer.rules data (outline.above id))).get? property =
        value ↔
      Effective composer.resetStyles (composer.stylesheets.flatMap Keyed.entries) outline id data
        property value := by
  rw [get?_merged_cascade]
  constructor
  · rintro rfl
    cases own : data.style.get? property with
    | some value => exact .own own
    | none =>
      cases ruled : ruled? composer outline id data property with
      | some value =>
        obtain ⟨before, entry, after, split, ⟨applies, set⟩, last⟩ :=
          (ruled?_eq_some_iff tree known).mp ruled
        exact .rule own split applies set last
      | none =>
        have unruled := (ruled?_eq_none_iff tree known).mp ruled
        cases fallback : default? composer data property with
        | some value =>
          obtain ⟨kept, style, found, set⟩ := default?_eq_some_iff.mp fallback
          exact .default own unruled kept found set
        | none => exact .nothing own unruled (default?_eq_none_iff.mp fallback)
  · intro effective
    cases effective with
    | own set => rw [set, Option.some_or]
    | rule free split applies set last =>
      rw [free, (ruled?_eq_some_iff tree known).mpr ⟨_, _, _, split, ⟨applies, set⟩, last⟩]
      rfl
    | default free unruled kept style set =>
      rw [free, (ruled?_eq_none_iff tree known).mpr unruled, default?, kept, style]
      exact set
    | nothing free unruled undefaulted =>
      rw [free, (ruled?_eq_none_iff tree known).mpr unruled,
        default?_eq_none_iff.mpr undefaulted]
      rfl

end

end Render

/-! ### The styles in a primitive -/

namespace Primitive

/-- **The lists of styles in a primitive** and in all in it, without those that are empty. -/
def styles (primitive : Primitive) : List (List Style.Map) :=
  (primitive.listing.map style).filter fun styles => !styles.isEmpty

theorem listingAll_eq (primitives : List Primitive) :
    listingAll primitives = primitives.flatMap listing := by
  induction primitives with
  | nil => rfl
  | cons primitive rest ih => rw [listingAll, ih, List.flatMap_cons]

theorem styles_eq (primitive : Primitive) :
    primitive.styles = ([primitive.style].filter fun styles => !styles.isEmpty) ++
      primitive.children.flatMap styles := by
  have listed : primitive.listing = primitive :: primitive.children.flatMap listing := by
    rw [← listingAll_eq]
    cases primitive <;> rfl
  rw [styles, listed, List.map_cons, ← List.singleton_append, List.filter_append, List.map_flatMap,
    List.filter_flatMap]
  rfl

/-- What has styles of its own adds them to those of what is in it. -/
theorem styles_of_styled {primitive : Primitive} (styled : primitive.style ≠ []) :
    primitive.styles = primitive.style :: primitive.children.flatMap styles := by
  rw [styles_eq, List.filter_cons_of_pos (by simpa using styled)]
  rfl

theorem styles_of_unstyled {primitive : Primitive} (unstyled : primitive.style = []) :
    primitive.styles = primitive.children.flatMap styles := by
  rw [styles_eq, unstyled]
  rfl

end Primitive

namespace Render

theorem mem_framedTags_iff (tag : Tag) : tag ∈ framedTags ↔ tag.name ∈ ["table", "td", "th"] := by
  cases tag <;> decide

/-- **What an element adds to the styles of a rendering**: nothing if nothing is shown of it, and
else one list with the styles that apply to it, for tables and cells between further ones. -/
def AddsStyles (composer : Composer) (rules : List StyleRule) (chain : List StyledElement)
    (added : List (List Style.Map)) : Prop :=
  ∃ data around, chain = data :: around ∧
    if pictureOf? (picture? composer.images) data = some none then added = []
    else ∃ before after, added = [before ++ composer.cascade rules data around ++ after] ∧
      (data.tag ∉ ["table", "td", "th"] → before = [] ∧ after = [])

section

variable {composer : Composer} {rules : List StyleRule} {around : List StyledElement} {id : Nat}
  {data : StyledElement} {below : List Content} {inside : Except RenderError (List Primitive)}
  {tag : Tag} {primitive : Primitive}

theorem addsStyles_of_empty (nothing : pictureOf? (picture? composer.images) data = some none) :
    AddsStyles composer rules (data :: around) [] :=
  ⟨data, around, rfl, (if_pos nothing).mpr rfl⟩

/-- What is rendered as something adds its own styles. -/
theorem addsStyles_of_standard (named : tag.name = data.tag)
    (shown : standard tag (composer.contextOf rules around id data below inside) = .ok primitive)
    (something : primitive ≠ .empty)
    (picture : pictureOf? (picture? composer.images) data ≠ some none) :
    primitive.style ≠ [] ∧ AddsStyles composer rules (data :: around) [primitive.style] := by
  obtain ⟨before, after, same, unframed⟩ := hasStylesOf_of_standard shown something
  have styled := cascade_ne_nil composer rules data around
  rw [mem_framedTags_iff, named] at unframed
  refine ⟨?_, data, around, rfl, ?_⟩
  · rw [same]
    exact List.append_ne_nil_of_left_ne_nil
      (List.append_ne_nil_of_right_ne_nil before styled) after
  · rw [if_neg picture]
    exact ⟨before, after, congrArg (fun styles => [styles]) same, unframed⟩

end

/-- **Styles are gathered from the elements that a rendering comes to.** -/
theorem gathers_styles (composer : Composer) (rules : List StyleRule) :
    Gathers composer rules Primitive.styles (AddsStyles composer rules) where
  literal _ := rfl
  run _ := Primitive.styles_of_unstyled rfl
  silent {around id data below inside tag primitive} named shown silent := by
    have rendered := rendered_of_standard shown
    have pictures : primitive.pictures = (pictureOf? (picture? composer.images) data).toList :=
      pictures_of_silent named rendered silent
    cases rendered with
    | nothing | noPicture =>
      exact addsStyles_of_empty (Option.toList_eq_singleton_iff.mp pictures.symm)
    | lineBreak | vector | picture =>
      obtain ⟨styled, adds⟩ := addsStyles_of_standard named shown nofun (by
        intro nothing
        rw [nothing] at pictures
        cases pictures)
      rw [Primitive.styles_of_styled styled]
      exact adds
    | item => exact absurd silent (by decide)
    | view plain | text plain | link plain => exact absurd silent (not_silent_of_isPlain plain)
  speaks {around id data below inside tag primitive} named shown speaks := by
    have picture : pictureOf? (picture? composer.images) data ≠ some none := by
      rw [pictureOf?_of_speaks (named ▸ speaks)]
      exact nofun
    have own := addsStyles_of_standard named shown
    cases rendered_of_standard shown with
    | nothing isMetadata => exact absurd ((mem_silentTags_iff tag).mpr (.inl isMetadata)) speaks
    | lineBreak | vector | picture | noPicture => exact absurd (by decide) speaks
    | @item children known =>
      obtain ⟨styled, adds⟩ := own nofun picture
      have content : (Primitive.text [] children).styles = children.flatMap Primitive.styles :=
        Primitive.styles_of_unstyled rfl
      refine ⟨children, _, known, adds, ?_⟩
      rw [Primitive.styles_of_styled styled, ← content]
      exact congrArg (_ :: ·) (List.append_nil _)
    | @view _ _ _ children plain known | @text _ children plain known
    | @link _ _ children plain known =>
      obtain ⟨styled, adds⟩ := own nofun picture
      exact ⟨children, _, known, adds, Primitive.styles_of_styled styled⟩

/-! ### Entries without a known selector -/

/-- A style sheet without the entries whose selector is not one that is known. -/
def knownEntries (table : Style.Table) : Style.Table :=
  ⟨table.entries.filter fun entry => (Selector.parse? entry.1).isSome⟩

/-- A composer whose style sheets have only the entries with a known selector. -/
def Composer.onlyKnown (composer : Composer) : Composer :=
  { composer with stylesheets := composer.stylesheets.map knownEntries }

theorem rules_onlyKnown (composer : Composer) :
    composer.onlyKnown.rules = composer.rules.filter fun rule => rule.1.isSome := by
  rw [rules_eq, rules_eq, List.filter_map, List.filter_flatMap, Composer.onlyKnown,
    List.flatMap_map]
  rfl

/-- **Entries whose selector is not known contribute to no element.** -/
theorem compose_onlyKnown {composer : Composer} (usual : composer.registry = Registry.standard)
    (content : Content) : composer.onlyKnown.compose content = composer.compose content := by
  have cascade (data : StyledElement) (around : List StyledElement) :
      composer.onlyKnown.cascade composer.onlyKnown.rules data around =
        composer.cascade composer.rules data around := by
    have same : Composer.matching composer.onlyKnown.rules (data :: around) =
        Composer.matching composer.rules (data :: around) := by
      rw [rules_onlyKnown, Composer.matching, List.filter_filter, Composer.matching]
      refine congrArg (List.map Prod.snd) (List.filter_congr fun rule _ => ?_)
      obtain ⟨selector, style⟩ := rule
      cases selector with
      | none => rfl
      | some selector => exact Bool.and_true _
    rw [Composer.cascade, same]
    rfl
  have alike : composer.onlyKnown.Alike .same .same composer composer.onlyKnown.rules
      composer.rules := ⟨usual, usual, rfl, cascade, fun _ => rfl⟩
  have rendered := recast_render Recasting.lawful_same Recasting.lawful_same rfl alike []
    Outline.root content
  have unchanged : Primitive.recast .same = id := funext Primitive.recast_same
  rw [unchanged, Except.map_id] at rendered
  exact rendered

/-! ### Passes -/

/-- Where some elements add one thing each and the others nothing, the things belong to the former.
-/
theorem forall₂_filter_flatten {α β : Type} {adds : α → List β → Prop} {belongs : α → β → Prop}
    {keep : α → Bool} (kept : ∀ a added, adds a added → keep a = true →
      ∃ b, added = [b] ∧ belongs a b)
    (dropped : ∀ a added, adds a added → keep a = false → added = [])
    {list : List α} {parts : List (List β)} (each : List.Forall₂ adds list parts) :
    List.Forall₂ belongs (list.filter keep) parts.flatten := by
  induction each with
  | nil => exact List.Forall₂.nil
  | @cons a added _ _ here _ ih =>
    rw [List.flatten_cons]
    cases keeps : keep a with
    | true =>
      obtain ⟨b, rfl, belongs⟩ := kept a added here keeps
      rw [List.filter_cons_of_pos keeps]
      exact List.Forall₂.cons belongs ih
    | false =>
      rw [dropped a added here keeps, List.filter_cons_of_neg (by simp [keeps])]
      exact ih

/-- The elements that a rendering shows with styles: those that it comes to, without those that are
about the document and the images that there is nothing to show for. -/
def styledIds (shows : StyledElement → Option ImageSource) (outline : Outline) : List Nat :=
  ((List.range outline.size).filter outline.IsReached).filter fun id =>
    (outline.element? id).any fun data => decide (pictureOf? shows data ≠ some none)

/-- The entries of the style sheets of a pass, in the order in which they count. -/
def sheetEntries (options : Options) (sheets : List Style.Table) : List (String × Style.Map) :=
  (options.stylesheets.map (fun text => (Style.Table.ofText text).value) ++ sheets).flatMap
    Keyed.entries

section

variable {options : Options} {acquirer : Acquirer} {document : Document}
  {computed : Option ComputedStyle} {root : Nat} {sheets : List Style.Table} {content : Content}
  {primitive : Primitive}

theorem entries_composerOf :
    (composerOf options acquirer sheets content).stylesheets.flatMap Keyed.entries =
      sheetEntries options sheets := by
  rw [composerOf, Reported.value_mapM, sheetEntries]

/-- **A pass gives the elements that it shows the styles that apply to them**, in order. -/
theorem styles_pass (built : (document.build computed root).outcome = .ok (sheets, content))
    (passed : (pass options Registry.standard acquirer document computed root).value =
      .ok primitive) :
    let composer := composerOf options acquirer sheets content
    ∃ rest, primitive.styles = [options.style] :: rest ∧
      List.Forall₂ (fun id styles => ∃ data before after,
          content.outline.element? id = some data ∧
          styles = before ++ composer.cascade composer.rules data (content.outline.above id) ++
            after ∧
          (data.tag ∉ ["table", "td", "th"] → before = [] ∧ after = []))
        (styledIds (acquired acquirer options.baseUrl) content.outline) rest := by
  intro composer
  obtain ⟨whole, inside, rfl⟩ := exists_rendered built passed
  obtain ⟨parts, each, gathered⟩ := (gathers_styles composer composer.rules).render rfl []
    Outline.root content
    (hasSmallTags_of_build built) inside
  rw [Content.reached_eq, List.forall₂_map_left_iff] at each
  have known {id : Nat} {data : StyledElement} {around : List StyledElement}
      (split : content.outline.chain id = data :: around) :
      content.outline.element? id = some data ∧ content.outline.above id = around ∧
        pictureOf? (picture? composer.images) data =
          pictureOf? (acquired acquirer options.baseUrl) data := by
    rw [(Content.isTree_outline content).chain_eq] at split
    cases found : content.outline.element? id with
    | none =>
      rw [found] at split
      cases split
    | some first =>
      rw [found] at split
      cases split
      exact ⟨rfl, rfl, pictureOf?_acquireAll (Content.mem_elements_of_element? found)⟩
  have styled : (Primitive.container [options.style] [whole]).style ≠ [] := List.cons_ne_nil _ _
  refine ⟨parts.flatten, ?_, forall₂_filter_flatten ?_ ?_ each⟩
  · rw [Primitive.styles_of_styled styled]
    exact congrArg (_ :: ·) ((List.append_nil _).trans gathered)
  · rintro id added ⟨data, around, split, adds⟩ keeps
    obtain ⟨found, rfl, same⟩ := known split
    rw [found, Option.any_some, decide_eq_true_eq, ← same] at keeps
    rw [if_neg keeps] at adds
    obtain ⟨before, after, rfl, unframed⟩ := adds
    exact ⟨_, rfl, data, before, after, found, rfl, unframed⟩
  · rintro id added ⟨data, around, split, adds⟩ drops
    obtain ⟨found, rfl, same⟩ := known split
    rw [found, Option.any_some, decide_eq_false_iff_not, Decidable.not_not, ← same] at drops
    exact (if_pos drops).mp adds

/-- **What the properties of the elements that a pass shows come to.**

Behind the styles of the options there is one list of styles for each element that is shown, in
order. For every element but a table or a cell, a property has the value of the element's own style
in it; or else that of the last entry that is for the element and sets the property, those of the
style sheets of the options before those of the document; or else that of the default style of its
tag, unless defaults are left out; or else none. Entries whose selector is not known change nothing
for any element. -/
theorem pass_styles (built : (document.build computed root).outcome = .ok (sheets, content))
    (passed : (pass options Registry.standard acquirer document computed root).value =
      .ok primitive) :
    (∃ rest, primitive.styles = [options.style] :: rest ∧
      List.Forall₂ (fun id styles => ∃ data, content.outline.element? id = some data ∧
          (data.tag ∉ ["table", "td", "th"] → ∀ property value,
            (Style.Map.merged styles).get? property = value ↔
              Effective options.resetStyles (sheetEntries options sheets) content.outline id data
                property value))
        (styledIds (acquired acquirer options.baseUrl) content.outline) rest) ∧
    ∃ whole, primitive = .container [options.style] [whole] ∧
      (composerOf options acquirer sheets content).onlyKnown.compose content = .ok whole := by
  constructor
  · obtain ⟨rest, listed, each⟩ := styles_pass built passed
    refine ⟨rest, listed, each.imp ?_⟩
    rintro id styles ⟨data, before, after, known, rfl, unframed⟩
    refine ⟨data, known, fun plain property value => ?_⟩
    obtain ⟨rfl, rfl⟩ := unframed plain
    rw [List.nil_append, List.append_nil,
      get?_merged_cascade_iff (Content.isTree_outline content) known, entries_composerOf]
    rfl
  · obtain ⟨whole, composed, same⟩ := exists_rendered built passed
    exact ⟨whole, same, (compose_onlyKnown rfl content).trans composed⟩

end

/-- A paragraph that a style sheet of the options gives a color. -/
theorem pass_styles_paragraph :
    let options : Options := { Options.default with stylesheets := ["p\x7bcolor:red\x7d"] }
    let acquirer : Acquirer := fun _ => .error .emptySource
    let document : Document := ⟨#[⟨.element ⟨"p", .empty⟩, none, []⟩]⟩
    (∃ sheets content, (document.build none 0).outcome = .ok (sheets, content)) ∧
      ∃ primitive styles,
        (pass options Registry.standard acquirer document none 0).value = .ok primitive ∧
        primitive.styles = [[options.style], styles] ∧
        (Style.Map.merged styles).get? .color = some (.text "red") := by
  intro options acquirer document
  let data : StyledElement := ⟨"p", .empty, .empty, 0⟩
  let content : Content := .element data []
  have built : (document.build none 0).outcome = .ok ([], content) := rfl
  have succeeds : (pass options Registry.standard acquirer document none
      0).value.toOption.isSome = true := by decide +kernel
  refine ⟨⟨_, _, built⟩, ?_⟩
  cases passed : (pass options Registry.standard acquirer document none 0).value with
  | error failure =>
    rw [passed] at succeeds
    cases succeeds
  | ok primitive =>
    obtain ⟨⟨rest, listed, each⟩, -⟩ := pass_styles built passed
    have shown : styledIds (acquired acquirer options.baseUrl) content.outline = [0] := by
      decide +kernel
    rw [shown] at each
    obtain ⟨styles, _, ⟨_, known, effective⟩, last, rfl⟩ := List.forall₂_cons_left_iff.mp each
    rw [List.forall₂_nil_left_iff.mp last] at listed
    cases known
    refine ⟨primitive, styles, rfl, listed, (effective (by decide) .color _).mpr ?_⟩
    have entries : (sheetEntries options []).map (fun entry => (entry.1, entry.2.get? .color)) =
        [("p", some (.text "red"))] := by decide +kernel
    obtain ⟨entry, alone, named⟩ := List.map_eq_singleton_iff.mp entries
    have split : sheetEntries options [] = [] ++ entry :: [] := alone
    obtain ⟨name, set⟩ := Prod.mk.inj named
    have applies : Applies content.outline 0 entry := by
      rw [Applies, name]
      exact ⟨⟨[.type "p"], []⟩, by decide +kernel, by decide +kernel⟩
    exact .rule rfl split applies set (List.forall_mem_nil _)

end Render

end PagedHtml
