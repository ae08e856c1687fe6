/-
**The elements of a content come in the order of its document.**

What is built of a document has an element for each element that is visible, and they come in the
order of the document. A walk with a stack over the outline of the content takes its numbers in
their own order, so that the sources of the images are listed as they first come in the document.

* `Content.takes_outline`, `Content.filterMap_element?_outline`: the walk over an outline;
* `Document.Unfolds.exists_shows`: the elements of a content are the visible ones of its document;
* `Document.Shows.sublist`: visible nodes come in the order of the document;
* `Document.walks_in_order`: all walks, over a document that is built and over what is built of it.
-/

import PagedHtml.Proofs.Content.Places
import PagedHtml.Proofs.Content.Walk
import PagedHtml.Proofs.Document.Iterator
import PagedHtml.Proofs.Image.Acquisition
import PagedHtml.Proofs.Text.LetterCase

namespace PagedHtml

theorem filterMap_range_getElem? {α : Type} (list : List α) :
    (List.range list.length).filterMap (fun place => list[place]?) = list := by
  induction list with
  | nil => rfl
  | cons first rest ih =>
    rw [List.length_cons, List.range_succ_eq_map, List.filterMap_cons, List.filterMap_map]
    exact congrArg (first :: ·) ih

/-! ### Walking in an outline -/

/-- The element of an entry. -/
def Outline.Entry.element? : Outline.Entry → Option StyledElement
  | text _ => none
  | element data _ _ => some data

namespace Content

section

variable {outline : Outline}

theorem get?_of_entries {before after : List Outline.Entry} {entry : Outline.Entry}
    (listed : outline.entries.toList = before ++ entry :: after) :
    outline.get? before.length = some entry := by
  rw [Outline.get?, ← Array.getElem?_toList, listed]
  simp

mutual

/-- What waits on the stack is taken with all numbers of the content that it is the first of. -/
theorem takes_entries (content : Content) {parent : Option Nat} {id : Nat}
    {before after : List Outline.Entry} {waiting taken : List Nat}
    (listed : outline.entries.toList = before ++ (content.entries parent id ++ after))
    (place : before.length = id) (takes : Takes outline.children waiting taken) :
    Takes outline.children (waiting ++ [id]) (List.range' id content.size ++ taken) := by
  cases content with
  | text shown =>
    obtain rfl := place
    have nothing : outline.children before.length = [] := by
      rw [Outline.children, get?_of_entries listed]
    refine .pop ?_
    rwa [nothing, List.reverse_nil, List.append_nil]
  | element data children =>
    obtain rfl := place
    have children_eq :
        outline.children before.length = siblingIds (before.length + 1) children := by
      rw [Outline.children, get?_of_entries listed]
    have lower : outline.entries.toList =
        (before ++ [.element data parent (siblingIds (before.length + 1) children)]) ++
          (entriesAll (some before.length) (before.length + 1) children ++ after) := by
      rw [listed, entries]
      simp
    have further := takes_entriesAll children lower (by simp) takes
    rw [size, List.range'_succ]
    refine .pop ?_
    rw [children_eq]
    exact further

theorem takes_entriesAll (siblings : List Content) {parent : Option Nat} {id : Nat}
    {before after : List Outline.Entry} {waiting taken : List Nat}
    (listed : outline.entries.toList = before ++ (entriesAll parent id siblings ++ after))
    (place : before.length = id) (takes : Takes outline.children waiting taken) :
    Takes outline.children (waiting ++ (siblingIds id siblings).reverse)
      (List.range' id (sizeAll siblings) ++ taken) := by
  cases siblings with
  | nil => simpa [siblingIds, sizeAll] using takes
  | cons first rest =>
    rw [entriesAll, List.append_assoc] at listed
    have behind : outline.entries.toList = (before ++ first.entries parent id) ++
        (entriesAll parent (id + first.size) rest ++ after) := by
      rw [listed, List.append_assoc]
    have later := takes_entriesAll rest behind (by simp [place, length_entries]) takes
    have here := takes_entries first listed place later
    rw [siblingIds, List.reverse_cons, ← List.append_assoc, sizeAll, ← List.range'_append_1,
      List.append_assoc (List.range' id first.size)]
    exact here

end

end

/-- **The walk over an outline takes all numbers in order.** -/
theorem takes_outline (content : Content) :
    Takes content.outline.children [Outline.root] (List.range content.size) := by
  have listed : content.outline.entries.toList = [] ++ (content.entries none 0 ++ []) := by
    simp [outline]
  have takes := takes_entries content listed rfl .done
  rwa [List.append_nil, ← List.range_eq_range'] at takes

mutual

theorem filterMap_entries (parent : Option Nat) (id : Nat) (content : Content) :
    (content.entries parent id).filterMap Outline.Entry.element? = content.elements := by
  cases content with
  | text => rfl
  | element data children =>
    exact congrArg (data :: ·) (filterMap_entriesAll (some id) (id + 1) children)

theorem filterMap_entriesAll (parent : Option Nat) (id : Nat) (siblings : List Content) :
    (entriesAll parent id siblings).filterMap Outline.Entry.element? = elementsAll siblings := by
  cases siblings with
  | nil => rfl
  | cons first rest =>
    rw [entriesAll, List.filterMap_append, filterMap_entries parent id first,
      filterMap_entriesAll parent _ rest, elementsAll]

end

/-- **The numbers of an outline are those of the elements, in the order of the text**, texts aside.
-/
theorem filterMap_element?_outline (content : Content) :
    (List.range content.size).filterMap content.outline.element? = content.elements := by
  have known (id : Nat) : content.outline.element? id =
      (content.entries none 0)[id]?.bind Outline.Entry.element? := by
    rw [Outline.element?, Outline.get?, outline, List.getElem?_toArray]
    cases (content.entries none 0)[id]? with
    | none => rfl
    | some entry => cases entry <;> rfl
  have numbered : (List.range content.size).filterMap (fun id => (content.entries none 0)[id]?) =
      content.entries none 0 := by
    rw [← length_entries none 0 content]
    exact filterMap_range_getElem? _
  rw [← filterMap_entries none 0 content, ← numbered, List.filterMap_filterMap]
  exact List.filterMap_congr fun id _ => known id

/-! ### Elements of a document -/

end Content

/-- The tag and the attributes of an element. -/
def StyledElement.toElement (data : StyledElement) : Element := ⟨data.tag, data.attributes⟩

/-- The reference of an image element that is not on the web. -/
def Element.localSource? (data : Element) : Option String :=
  let source := data.attributes.getD "src"
  if data.tag = "img" ∧ Reference.isRemote source = false then some source else none

namespace Document

/-- An element with its tag in small letters. -/
def smallElement? (document : Document) (id : Nat) : Option Element :=
  (document.element? id).map fun data => ⟨Text.lower data.tag, data.attributes⟩

/-- The reference of a node that is an image element, if it is not on the web. -/
def localSource? (document : Document) (id : Nat) : Option String :=
  (document.smallElement? id).bind Element.localSource?

end Document

namespace Content

theorem elements_countFrom (before : List String) (siblings : List Content) :
    (elementsAll (countFrom before siblings)).map StyledElement.toElement =
      (elementsAll siblings).map StyledElement.toElement := by
  fun_induction countFrom before siblings with
  | case1 => rfl
  | case2 before shown rest ih => exact ih
  | case3 before data children rest ih =>
    simp only [elementsAll, elements, List.map_append, ih]
    rfl

end Content

namespace Document

variable {document : Document} {computed : Option ComputedStyle} {root : Nat}

theorem exists_shows_of_forall₂ {ids : List Nat} {images : List Content}
    (each : List.Forall₂ (fun id image => ∃ visible, document.Shows computed [id] visible ∧
      image.elements.map StyledElement.toElement = visible.filterMap document.smallElement?)
      ids images) :
    ∃ visible, document.Shows computed ids visible ∧
      (Content.elementsAll images).map StyledElement.toElement =
        visible.filterMap document.smallElement? := by
  induction each with
  | nil => exact ⟨[], .nil, rfl⟩
  | cons here _ ih =>
    obtain ⟨visible, shows, same⟩ := here
    obtain ⟨others, showsOthers, sameOthers⟩ := ih
    refine ⟨visible ++ others, shows.append showsOthers, ?_⟩
    rw [Content.elementsAll, List.map_append, same, sameOthers, List.filterMap_append]

theorem element?_eq_none {id : Nat} {node : Node} (found : document.get? id = some node)
    (other : ∀ data, node.kind ≠ .element data) : document.element? id = none := by
  refine Option.eq_none_iff_forall_ne_some.mpr fun data isElement => ?_
  obtain ⟨same, known, kind⟩ := element?_eq_some_iff.mp isElement
  rw [found] at known
  exact other data (Option.some.inj known ▸ kind)

theorem exists_shows_leaf {id : Nat} (noElement : document.element? id = none) :
    ∃ visible, document.Shows computed [id] visible ∧
      [] = visible.filterMap document.smallElement? :=
  ⟨[id], .leaf noElement .nil, by simp [smallElement?, noElement]⟩

theorem Unfolds.exists_shows {id : Nat} {content : Content}
    (unfolds : document.Unfolds computed id content) :
    ∃ visible, document.Shows computed [id] visible ∧
      content.elements.map StyledElement.toElement = visible.filterMap document.smallElement? := by
  induction unfolds with
  | text found kind => exact exists_shows_leaf (element?_eq_none found (by simp [kind]))
  | comment found kind => exact exists_shows_leaf (element?_eq_none found (by simp [kind]))
  | hidden found kind hidden =>
    exact ⟨[], .hidden (element?_eq_some_iff.mpr ⟨_, found, kind⟩) hidden .nil, rfl⟩
  | @element id node data style images found kind shown styled long each ih =>
    have isElement := element?_eq_some_iff.mpr ⟨node, found, kind⟩
    have below : List.Forall₂ (fun id image => ∃ visible, document.Shows computed [id] visible ∧
        image.elements.map StyledElement.toElement = visible.filterMap document.smallElement?)
        node.children images :=
      List.forall₂_iff_get.mpr ⟨long.symm, fun place inChildren inImages =>
        ih place _ _ (List.getElem?_eq_getElem inChildren) (List.getElem?_eq_getElem inImages)⟩
    obtain ⟨visible, shows, same⟩ := exists_shows_of_forall₂ below
    have children : document.children id = node.children := by rw [Document.children, found]
    refine ⟨id :: (visible ++ []), .element isElement shown (children ▸ shows) .nil, ?_⟩
    rw [← Content.countSiblings_eq, Content.elements, List.map_cons, Content.countSiblings,
      Content.elements_countFrom, same, List.append_nil, List.filterMap_cons, smallElement?,
      isElement]
    rfl

/-- The visible nodes come in the order of the document. -/
theorem Shows.sublist {ids visible order : List Nat} (shows : document.Shows computed ids visible)
    (inOrder : document.InOrder ids order) : visible.Sublist order := by
  induction shows generalizing order with
  | nil => exact List.nil_sublist _
  | hidden _ _ _ ih =>
    cases inOrder with
    | cons _ after => exact ((ih after).trans (List.sublist_append_right _ _)).cons _
  | leaf _ _ ih =>
    cases inOrder with
    | cons _ after => exact ((ih after).trans (List.sublist_append_right _ _)).cons_cons _
  | element _ _ _ _ ihBelow ih =>
    cases inOrder with
    | cons below after => exact ((ihBelow below).append (ih after)).cons_cons _

theorem filterMap_localSource? {content : Content} {visible : List Nat}
    (same : content.elements.map StyledElement.toElement =
      visible.filterMap document.smallElement?) :
    content.localSources = visible.filterMap document.localSource? := by
  have onElement : Content.localSource? = Element.localSource? ∘ StyledElement.toElement := rfl
  rw [Content.localSources, onElement, ← List.filterMap_map, same, List.filterMap_filterMap]
  rfl

/-- **All walks come to nodes in the order of the document.**

In a document that is built, where no node from there on is inside of itself, there is one order of
what is at and below a node. It is what the walk with a stack takes until it comes to its end, what
the first steps of it come to, and what going down by generations lists, and elements are found by
their tag in this order. Building takes the visible nodes in it.

In the order of the visible nodes the elements of what is built come too. The walk with a stack over
its outline takes the numbers in their own order, which is that of the elements, and the sources of
the images are those of the visible nodes in the order in which they first come. -/
theorem walks_in_order (operations : List Operation) :
    let document := blank.performAll operations
    (∀ id, document.AcyclicFrom id → ∃ order,
      (∀ other, document.InOrder [id] other ↔ other = order) ∧
      (∀ taken, Takes document.children [id] taken ↔ taken = order) ∧
      (∀ limit, document.visit limit [id] = order.take limit) ∧
      document.descendants id = order ∧
      (∀ tag, document.elementsByTag id tag = order.filter fun below =>
        (document.element? below).any fun data => Text.lower data.tag == Text.lower tag) ∧
      ∀ computed visible, document.Shows computed [id] visible → visible.Sublist order) ∧
    ∀ computed root content, (Content.ofDocument document computed root).outcome = .ok content →
      ∃ visible, (∀ other, document.Shows computed [root] other ↔ other = visible) ∧
        content.elements.map StyledElement.toElement = visible.filterMap document.smallElement? ∧
        (∀ taken, Takes content.outline.children [Outline.root] taken ↔
          taken = List.range content.size) ∧
        (List.range content.size).filterMap content.outline.element? = content.elements ∧
        IsFirsts content.imageSources (visible.filterMap document.localSource?) := by
  intro document
  refine ⟨fun id acyclic => ?_, fun computed root content built => ?_⟩
  · obtain ⟨order, inOrder⟩ := acyclic.exists_inOrder
    have takes : Takes document.children [id] order := takes_iff_inOrder.mpr inOrder
    have listed := inOrder.descendants_eq acyclic
    refine ⟨order, fun other => ⟨inOrder.unique, ?_⟩, fun taken => ⟨takes.unique, ?_⟩,
      inOrder.visit_eq_take, listed, fun tag => ?_, fun computed visible shows =>
        shows.sublist inOrder⟩
    · rintro rfl
      exact inOrder
    · rintro rfl
      exact takes
    · rw [elementsByTag, listed]
      refine List.filter_congr fun below _ => congrArg (Option.any · _) (funext fun data => ?_)
      rw [Bool.eq_iff_iff, Text.equalsIgnoringCase_iff, beq_iff_eq]
  · obtain ⟨visible, shows, same⟩ := (ofDocument_eq_ok_iff.mp built).exists_shows
    refine ⟨visible, fun other => ⟨shows.unique, ?_⟩, same,
      fun taken => ⟨content.takes_outline.unique, ?_⟩, content.filterMap_element?_outline, ?_⟩
    · rintro rfl
      exact shows
    · rintro rfl
      exact content.takes_outline
    · rw [← filterMap_localSource? same]
      exact content.isFirsts_imageSources

/-- An image in capitals with two places, one of which comes before the other in a paragraph. -/
theorem walks_in_order_shared_image :
    let image : Element := ⟨"IMG", .ofList [("src", "a.png")]⟩
    let document := blank.performAll [.append 0 (.element ⟨"div", .empty⟩),
      .append 1 (.element ⟨"p", .empty⟩), .append 1 (.element image), .appendChild 2 3]
    document.AcyclicFrom 1 ∧ Takes document.children [1] [1, 2, 3, 3] ∧
      document.visit 3 [1] = [1, 2, 3] ∧ document.elementsByTag 1 "img" = [3, 3] ∧
      ∃ content, (Content.ofDocument document none 1).outcome = .ok content ∧
        IsFirsts content.imageSources ["a.png", "a.png"] := by
  intro image document
  have growing : ∀ above < document.size, ∀ below ∈ document.children above, above < below := by
    decide
  have acyclic : document.AcyclicFrom 1 :=
    .of_lt (fun above below lists => growing above (lt_size_of_isAbove lists) below lists) 1
  have down : document.descendants 1 = [1, 2, 3, 3] := by decide +kernel
  have alone : document.Shows none [3] (3 :: ([] ++ [])) :=
    .element rfl (by decide +kernel) .nil .nil
  have inside : document.Shows none [2, 3] (2 :: ([3] ++ [3])) :=
    .element rfl (by decide +kernel) alone alone
  have shows : document.Shows none [1] (1 :: ([2, 3, 3] ++ [])) :=
    .element rfl (by decide +kernel) inside .nil
  have sources : [1, 2, 3, 3].filterMap document.localSource? = ["a.png", "a.png"] := by
    decide +kernel
  have built : ∃ content, (Content.ofDocument document none 1).outcome = .ok content :=
    failure?_eq_none_iff.mp (by decide +kernel)
  obtain ⟨walks, builds⟩ := walks_in_order [.append 0 (.element ⟨"div", .empty⟩),
    .append 1 (.element ⟨"p", .empty⟩), .append 1 (.element image), .appendChild 2 3]
  obtain ⟨order, -, takes, visited, listed, tagged, -⟩ := walks 1 acyclic
  obtain rfl := down.symm.trans listed
  obtain ⟨content, built⟩ := built
  obtain ⟨visible, shown, -, -, -, firsts⟩ := builds none 1 content built
  obtain rfl := (shown _).mp shows
  refine ⟨acyclic, (takes _).mpr rfl, visited 3, (tagged "img").trans ?_, content, built,
    sources ▸ firsts⟩
  decide +kernel

end Document

end PagedHtml
