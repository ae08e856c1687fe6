/-
**Every image is shown by its own source.**

An image on the web is shown by its address, and any other one by the bytes that the acquirer has
for its own source, or as nothing if it has none (`acquired`). Nothing else is shown as a picture
(`Primitive.pictures`), and pictures come in the order of the elements that a rendering comes to.

* `gathers_pictures`, `pictures_render`: a rendering shows the pictures of the reached elements;
* `pictures_pass`: the same for a pass over a document, by what the acquirer has for each image;
* `pass_images`: how a pass acquires the images of a document, what it reports of them, and what
  it shows.
-/

import PagedHtml.Proofs.Render.Gathering
import PagedHtml.Proofs.Render.Reports

namespace PagedHtml

/-! ### The pictures in a primitive -/

namespace Primitive

mutual

/-- **The pictures in a primitive**, in order; an empty primitive stands for one that is missing. -/
def pictures : Primitive → List (Option ImageSource)
  | empty => [none]
  | image _ source => [some source]
  | view _ _ children | text _ children | link _ _ children => picturesAll children
  | literal _ | vector _ _ => []

def picturesAll : List Primitive → List (Option ImageSource)
  | [] => []
  | first :: rest => pictures first ++ picturesAll rest

end

theorem picturesAll_eq (primitives : List Primitive) :
    picturesAll primitives = primitives.flatMap pictures := by
  induction primitives with
  | nil => rfl
  | cons primitive rest ih => rw [picturesAll, ih, List.flatMap_cons]

end Primitive

namespace Render

open Primitive (picturesAll)

/-! ### The pictures of elements -/

/-- The tags of elements that are about the document, in whose place nothing is shown. -/
def metadataTags : List String :=
  ["head", "title", "meta", "link", "style", "script", "noscript", "template"]

/-- What is shown in the place of an element for a picture, if pictures of images are shown as
`shows` says. -/
def pictureOf? (shows : StyledElement → Option ImageSource) (data : StyledElement) :
    Option (Option ImageSource) :=
  if data.tag = "img" then some (shows data)
  else if data.tag ∈ metadataTags then some none
  else none

section

variable {context : Context} {tag : Tag} {primitive : Primitive}

theorem mem_metadataTags_iff (tag : Tag) : tag.name ∈ metadataTags ↔ tag.category = .metadata := by
  cases tag <;> decide

theorem pictures_of_silent (named : tag.name = context.element.tag)
    (rendered : Rendered context tag primitive) (silent : tag.name ∈ Content.silentTags) :
    primitive.pictures = (pictureOf? (picture? context.images) context.element).toList := by
  unfold pictureOf?
  rw [← named]
  cases rendered with
  | nothing isMetadata =>
    have notImage : tag.name ≠ "img" := by
      rintro isImage
      have listed := (mem_metadataTags_iff tag).mpr isMetadata
      rw [isImage] at listed
      exact absurd listed (by decide)
    rw [if_neg notImage, if_pos ((mem_metadataTags_iff tag).mpr isMetadata)]
    rfl
  | lineBreak | vector => rfl
  | picture shown | noPicture shown =>
    rw [if_pos (show Tag.image.name = "img" from rfl), shown]
    rfl
  | item => exact absurd silent (by decide)
  | view plain | text plain | link plain => exact absurd silent (not_silent_of_isPlain plain)

theorem pictures_of_speaks (rendered : Rendered context tag primitive)
    (speaks : tag.name ∉ Content.silentTags) :
    ∃ children, context.children = .ok children ∧ primitive.pictures = picturesAll children := by
  cases rendered with
  | nothing isMetadata => exact absurd ((mem_silentTags_iff tag).mpr (.inl isMetadata)) speaks
  | lineBreak | vector | picture | noPicture => exact absurd (by decide) speaks
  | item known =>
    refine ⟨_, known, ?_⟩
    simp [Primitive.unbreakable, Primitive.container, Primitive.pictures, picturesAll]
  | view plain known | text plain known | link plain known => exact ⟨_, known, rfl⟩

theorem pictureOf?_of_speaks {data : StyledElement} (speaks : data.tag ∉ Content.silentTags)
    (shows : StyledElement → Option ImageSource) : pictureOf? shows data = none := by
  have listed : ∀ name ∈ "img" :: metadataTags, name ∈ Content.silentTags := by decide
  obtain ⟨notImage, notMetadata⟩ := not_or.mp (mt List.mem_cons.mpr (mt (listed data.tag) speaks))
  rw [pictureOf?, if_neg notImage, if_neg notMetadata]

end

/-! ### The walk -/

/-- What is shown in the place of the first element of a chain for a picture. -/
def pictureAt? (shows : StyledElement → Option ImageSource) (chain : List StyledElement) :
    Option (Option ImageSource) :=
  chain.head?.bind (pictureOf? shows)

/-- **Pictures are gathered from the elements that a rendering comes to.** -/
theorem gathers_pictures (composer : Composer) (rules : List StyleRule) :
    Gathers composer rules Primitive.pictures fun chain added =>
      added = (pictureAt? (picture? composer.images) chain).toList where
  literal _ := rfl
  run := Primitive.picturesAll_eq
  silent named shown silent := pictures_of_silent named (rendered_of_standard shown) silent
  speaks {around id data below inside tag primitive} named shown speaks := by
    obtain ⟨children, known, same⟩ := pictures_of_speaks (rendered_of_standard shown) speaks
    have without : pictureAt? (picture? composer.images) (data :: around) = none :=
      pictureOf?_of_speaks (named ▸ speaks) _
    refine ⟨children, [], known, ?_, ?_⟩
    · rw [without]
      rfl
    · rw [same, Primitive.picturesAll_eq]
      rfl

/-- **A rendering shows the pictures of the elements that it comes to**, in order. -/
theorem pictures_render {composer : Composer} (usual : composer.registry = Registry.standard)
    {rules : List StyleRule} {around : List StyledElement} {id : Nat} {content : Content}
    (small : HasSmallTags content.elements) {primitive : Primitive}
    (rendered : composer.render rules around id content = .ok primitive) :
    primitive.pictures =
      (content.reached around).filterMap (pictureAt? (picture? composer.images)) := by
  rw [List.filterMap_eq_flatMap_toList]
  exact (gathers_pictures composer rules).render_eq usual small rendered

/-! ### Passes -/

/-- **What an image is shown as**, by what the acquirer has for its source and for no other one. -/
def acquired (acquirer : Acquirer) (base : Option String) (data : StyledElement) :
    Option ImageSource :=
  let source := Content.imageSource data
  if Reference.isRemote source then some (.url source)
  else (acquirer (Reference.resolve source base)).toOption.map .data

/-- Every image of a content that is not on the web is one of its sources. -/
theorem imageSource_mem_imageSources {content : Content} {data : StyledElement}
    (inside : data ∈ content.elements) (isImage : data.tag = "img")
    (isLocal : Reference.isRemote (Content.imageSource data) = false) :
    Content.imageSource data ∈ content.imageSources :=
  ((Content.isFirsts_imageSources content).mem_iff _).mpr
    (List.mem_filterMap.mpr ⟨data, inside, if_pos ⟨isImage, isLocal⟩⟩)

/-- The store that is acquired for a content has the bytes of every image of it. -/
theorem picture?_acquireAll {acquirer : Acquirer} {base : Option String} {content : Content}
    {data : StyledElement} (inside : data ∈ content.elements) (isImage : data.tag = "img") :
    picture? (Image.acquireAll acquirer content.imageSources base).value data =
      acquired acquirer base data := by
  unfold picture? acquired
  simp only
  split
  · rfl
  · next isLocal =>
    have listed := imageSource_mem_imageSources inside isImage (Bool.eq_false_iff.mpr isLocal)
    rw [Image.get?_acquireAll, if_pos listed]

/-- What is shown for an element of a content, by what the acquirer has. -/
theorem pictureOf?_acquireAll {acquirer : Acquirer} {base : Option String} {content : Content}
    {data : StyledElement} (inside : data ∈ content.elements) :
    pictureOf? (picture? (Image.acquireAll acquirer content.imageSources base).value) data =
      pictureOf? (acquired acquirer base) data := by
  unfold pictureOf?
  split
  · next isImage => rw [picture?_acquireAll inside isImage]
  · rfl

/-- The pictures of the reached elements, by their numbers. -/
theorem filterMap_pictureAt?_reached {shows : StyledElement → Option ImageSource}
    (content : Content) :
    (content.reached []).filterMap (pictureAt? shows) =
      ((List.range content.outline.size).filter content.outline.IsReached).filterMap fun id =>
        (content.outline.element? id).bind (pictureOf? shows) := by
  rw [Content.reached_eq, List.filterMap_map]
  refine List.filterMap_congr fun id _ => ?_
  rw [Function.comp_apply, pictureAt?, (Content.isTree_outline content).chain_eq]
  cases content.outline.element? id <;> rfl

section

variable {options : Options} {document : Document} {computed : Option ComputedStyle} {root : Nat}
  {sheets : List Style.Table} {content : Content}

/-- **A pass shows the pictures of the elements that it comes to**, each image by its own source. -/
theorem pictures_pass {acquirer : Acquirer} {primitive : Primitive}
    (built : (document.build computed root).outcome = .ok (sheets, content))
    (passed : (pass options Registry.standard acquirer document computed root).value =
      .ok primitive) :
    primitive.pictures =
      ((List.range content.outline.size).filter content.outline.IsReached).filterMap fun id =>
        (content.outline.element? id).bind
          (pictureOf? (acquired acquirer options.baseUrl)) := by
  obtain ⟨whole, inside, rfl⟩ := exists_rendered built passed
  have shown := pictures_render rfl (hasSmallTags_of_build built) inside
  rw [filterMap_pictureAt?_reached] at shown
  refine (List.append_nil whole.pictures).trans (shown.trans ?_)
  refine List.filterMap_congr fun id _ => Option.bind_congr fun data known => ?_
  exact pictureOf?_acquireAll (Content.mem_elements_of_element? known)

/-- **How a pass acquires the images of a document, what it reports of them, and what it shows.**

The sources are the references of images that are not on the web, each once, in the order of the
text. In whatever order the acquirer is asked and answers, it is asked once for each of them, so for
every image, and what is collected is the same. A source is reported if it has no bytes, because
the acquirer fails or panics, and that leaves what is acquired for others as it is. What is shown of
an image is what the acquirer has for its own source. -/
theorem pass_images {respond : String → Image.Answer}
    (built : (document.build computed root).outcome = .ok (sheets, content)) :
    let acquirer : Acquirer := fun reference => (respond reference).result
    let sources := content.imageSources
    let base := options.baseUrl
    IsFirsts sources content.localSources ∧
    (∀ now, Image.Acquisitions.Reaches respond base sources now →
      (∃ final, Relation.ReflTransGen (Image.Acquisitions.Step respond base) now final ∧
        final.IsComplete) ∧
      (now.IsComplete →
        now.requests.Perm (sources.map fun source => (source, Reference.resolve source base)) ∧
        (∀ data ∈ content.elements, data.tag = "img" →
          Reference.isRemote (Content.imageSource data) = false →
          (Content.imageSource data, Reference.resolve (Content.imageSource data) base) ∈
            now.requests) ∧
        now.collect = Image.acquireAll acquirer sources base)) ∧
    (∀ registry, (pass options registry acquirer document computed root).diagnostics.filter
        Diagnostic.isImage = sources.filterMap (Image.unavailable? acquirer base)) ∧
    (∀ (other : Acquirer) (source : String),
      other (Reference.resolve source base) = acquirer (Reference.resolve source base) →
      (Image.acquireAll other sources base).value.get? source =
        (Image.acquireAll acquirer sources base).value.get? source) ∧
    ∀ primitive, (pass options Registry.standard acquirer document computed root).value =
        .ok primitive →
      primitive.pictures =
        ((List.range content.outline.size).filter content.outline.IsReached).filterMap fun id =>
          (content.outline.element? id).bind (pictureOf? (acquired acquirer base)) := by
  intro acquirer sources base
  refine ⟨Content.isFirsts_imageSources content, fun now reaches => ⟨?_, fun complete => ?_⟩,
    fun registry => ?_, fun other source same => Image.get?_acquireAll_congr same sources,
    fun primitive passed => pictures_pass built passed⟩
  · exact Image.Acquisitions.exists_isComplete respond base now
  · have requested := reaches.requests_perm complete
    refine ⟨requested, fun data inside isImage isLocal => ?_, reaches.collect_eq complete⟩
    have listed := imageSource_mem_imageSources inside isImage isLocal
    exact requested.mem_iff.mpr (List.mem_map.mpr ⟨_, listed, rfl⟩)
  · rw [filter_isImage_pass built, Image.diagnostics_acquireAll]

end

/-- An image that stands twice in a document, one that panics the acquirer, and one on the web. -/
theorem pass_images_twice :
    let options : Options := { Options.default with baseUrl := some "http://h/d/e" }
    let respond : String → Image.Answer := fun reference =>
      if reference = "http://h/d/a" then .answered (.ok [7]) else .panicked
    let acquirer : Acquirer := fun reference => (respond reference).result
    let document : Document := ⟨#[⟨.element ⟨"div", .empty⟩, none, [1, 2, 3, 4]⟩,
      ⟨.element ⟨"img", ⟨[("src", "a")]⟩⟩, some 0, []⟩,
      ⟨.element ⟨"img", ⟨[("src", "b")]⟩⟩, some 0, []⟩,
      ⟨.element ⟨"IMG", ⟨[("src", "http://h/c")]⟩⟩, some 0, []⟩,
      ⟨.element ⟨"img", ⟨[("src", "a")]⟩⟩, some 0, []⟩]⟩
    (∃ sheets content, (document.build none 0).outcome = .ok (sheets, content)) ∧
      (pass options Registry.standard acquirer document none 0).diagnostics.filter
        Diagnostic.isImage = [.imageUnavailable "b" "image acquisition panicked"] ∧
      ∃ primitive,
        (pass options Registry.standard acquirer document none 0).value = .ok primitive ∧
        primitive.pictures =
          [some (.data [7]), none, some (.url "http://h/c"), some (.data [7])] := by
  intro options respond acquirer document
  let image (source : String) (index : Nat) : Content :=
    .element ⟨"img", ⟨[("src", source)]⟩, .empty, index⟩ []
  let content : Content := .element ⟨"div", .empty, .empty, 0⟩
    [image "a" 0, image "b" 1, image "http://h/c" 2, image "a" 3]
  have built : (document.build none 0).outcome = .ok ([], content) := rfl
  have succeeds : (pass options Registry.standard acquirer document none
      0).value.toOption.isSome = true := by decide +kernel
  have images := @pass_images options document none 0 [] content respond built
  have reported := images.2.2.1 Registry.standard
  have shown := images.2.2.2.2
  refine ⟨⟨_, _, built⟩, reported.trans (by decide +kernel), ?_⟩
  cases passed : (pass options Registry.standard acquirer document none 0).value with
  | error failure =>
    rw [passed] at succeeds
    cases succeeds
  | ok primitive =>
    refine ⟨primitive, rfl, (shown primitive passed).trans ?_⟩
    decide +kernel

end Render

end PagedHtml
