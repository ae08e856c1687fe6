/-
**What building a content comes to, by the nodes that it walks over.**

Building walks from a node into the children of the elements that are not hidden, and takes the
nodes that it comes to, hidden elements aside, in the order of the document (`Document.Shows`). At
each of these nodes it reports what the `style` attribute gives rise to and then fails, if the node
is of no kind that has content or the host has a value for it that has no translation
(`Document.Flaw`). Nothing else reports or fails, so that the first flaw ends the building.

* `Document.Shows.mem_iff`: which nodes are visible;
* `failure?_withComputed`: of the values of the host the first without a translation counts;
* `Document.AcyclicShownFrom.looksFrom_ofDocument`: building only looks at the visible nodes;
* `Document.AcyclicShownFrom.ofDocument_visible`: when it succeeds, how it fails, what it reports.
-/

import PagedHtml.Proofs.Content.Styling

namespace PagedHtml

open Content

/-- A value of the host that is to be set on an element and has no translation. -/
def ComputedStyle.Untranslatable (host : ComputedStyle) (id : Nat) (property : Style.Property)
    (raw : String) : Prop :=
  host.value? id property.cssName = some raw ∧ raw ≠ "" ∧
    ∀ translation, Style.ofComputed property .element raw ≠ .ok translation

/-! ### Visible nodes -/

namespace Document

variable (document : Document) (computed : Option ComputedStyle)

/-- **The visible nodes of a walk from some nodes on**, in the order of the document: the nodes that
it comes to without the hidden elements, into the children of which it does not go. -/
inductive Shows : List Nat → List Nat → Prop
  | nil : Shows [] []
  | hidden {id : Nat} {data : Element} {rest visible : List Nat} :
      document.element? id = some data → isHidden computed id data = true →
      Shows rest visible → Shows (id :: rest) visible
  | leaf {id : Nat} {rest visible : List Nat} :
      document.element? id = none → Shows rest visible → Shows (id :: rest) (id :: visible)
  | element {id : Nat} {data : Element} {rest below visible : List Nat} :
      document.element? id = some data → isHidden computed id data = false →
      Shows (document.children id) below → Shows rest visible →
      Shows (id :: rest) (id :: (below ++ visible))

/-- That a node is an element that is hidden. -/
def IsHiddenElement (id : Nat) : Prop :=
  ∃ data, document.element? id = some data ∧ isHidden computed id data = true

/-- **That a visible node has content**: it is a text, a comment or an element, and what the host
has for an element can be translated. -/
structure IsSound (id : Nat) : Prop where
  kind : ∃ node, document.get? id = some node ∧
    ((∃ shown, node.kind = .text shown) ∨ (∃ remark, node.kind = .comment remark) ∨
      ∃ data, node.kind = .element data)
  values : ∀ host data, computed = some host → document.element? id = some data →
    ∀ property ∈ Style.Property.computed, ∀ raw, ¬ host.Untranslatable id property raw

/-- **Why a visible node has no content.** Of several values without a translation it is the first
in the order in which the host is asked for them. -/
inductive Flaw (id : Nat) : BuildError → Prop
  | missing : document.get? id = none → Flaw id (.unsupportedKind "missing")
  | kind {node : Node} : document.get? id = some node →
      (node.kind = .document ∨ ∃ name, node.kind = .doctype name) →
      Flaw id (.unsupportedKind node.kind.label)
  | value {host : ComputedStyle} {data : Element} {property : Style.Property} {raw : String}
      {before after : List Style.Property} :
      computed = some host → document.element? id = some data →
      Style.Property.computed = before ++ property :: after →
      (∀ earlier ∈ before, ∀ other, ¬ host.Untranslatable id earlier other) →
      host.Untranslatable id property raw → Flaw id (.invalidValue ⟨property, raw⟩)

/-- What the `style` attribute of a node gives rise to, if it is an element. -/
def attributeReports (id : Nat) : List Diagnostic :=
  match document.element? id with
  | some data => (attributeStyle data).diagnostics
  | none => []

end Document

variable {document : Document} {computed : Option ComputedStyle}

namespace Document.Shows

variable {ids visible : List Nat}

theorem append {first second below : List Nat} (shows₁ : document.Shows computed first visible)
    (shows₂ : document.Shows computed second below) :
    document.Shows computed (first ++ second) (visible ++ below) := by
  induction shows₁ with
  | nil => exact shows₂
  | hidden isElement hidden _ ih => exact .hidden isElement hidden ih
  | leaf noElement _ ih => exact .leaf noElement ih
  | element isElement shown inside _ _ ih =>
    rw [List.cons_append, List.cons_append, List.append_assoc]
    exact .element isElement shown inside ih

/-- A walk has one list of visible nodes. -/
theorem unique (walk : document.Shows computed ids visible) :
    ∀ {others : List Nat}, document.Shows computed ids others → others = visible := by
  -- Two walks could only take their first node for something different.
  induction walk with
  | nil =>
    intro others other
    cases other
    rfl
  | hidden isElement hidden _ ih =>
    intro others other
    cases other with
    | hidden _ _ later => exact ih later
    | leaf noElement _ =>
      rw [isElement] at noElement
      cases noElement
    | element same shown _ _ =>
      obtain rfl := Option.some.inj (isElement.symm.trans same)
      rw [hidden] at shown
      cases shown
  | leaf noElement _ ih =>
    intro others other
    cases other with
    | leaf _ later => rw [ih later]
    | hidden isElement _ _ | element isElement _ _ _ =>
      rw [noElement] at isElement
      cases isElement
  | element isElement shown _ _ ihBelow ih =>
    intro others other
    cases other with
    | hidden same hidden _ =>
      obtain rfl := Option.some.inj (isElement.symm.trans same)
      rw [shown] at hidden
      cases hidden
    | leaf noElement _ =>
      rw [isElement] at noElement
      cases noElement
    | element _ _ below later => rw [ihBelow below, ih later]

/-- **The visible nodes are those that the walk comes to, hidden elements aside.** -/
theorem mem_iff (walk : document.Shows computed ids visible) (id : Nat) :
    id ∈ visible ↔
      ∃ start ∈ ids, Relation.ReflTransGen (document.IsShownAbove computed) start id ∧
        ¬ document.IsHiddenElement computed id := by
  induction walk with
  | nil => simp
  | @hidden start data rest visible isElement hidden _ ih =>
    have stays : ∀ child, ¬ document.IsShownAbove computed start child := by
      rintro child ⟨⟨other, same, shown⟩, -⟩
      obtain rfl := Option.some.inj (isElement.symm.trans same)
      rw [hidden] at shown
      cases shown
    rw [ih, List.exists_mem_cons_iff, Relation.reflTransGen_iff_eq stays]
    refine (or_iff_right ?_).symm
    rintro ⟨rfl, notHidden⟩
    exact notHidden ⟨data, isElement, hidden⟩
  | @leaf start rest visible noElement _ ih =>
    have stays : ∀ child, ¬ document.IsShownAbove computed start child := by
      rintro child ⟨⟨other, isElement, -⟩, -⟩
      rw [noElement] at isElement
      cases isElement
    have notHidden : ¬ document.IsHiddenElement computed start := by
      rintro ⟨other, isElement, -⟩
      rw [noElement] at isElement
      cases isElement
    rw [List.mem_cons, ih, List.exists_mem_cons_iff, Relation.reflTransGen_iff_eq stays]
    refine or_congr_left (and_iff_left_of_imp ?_).symm
    rintro rfl
    exact notHidden
  | @element start data rest below visible isElement shown _ _ ihBelow ih =>
    have notHidden : ¬ document.IsHiddenElement computed start := by
      rintro ⟨other, same, hidden⟩
      obtain rfl := Option.some.inj (isElement.symm.trans same)
      rw [shown] at hidden
      cases hidden
    have goes (child : Nat) :
        document.IsShownAbove computed start child ↔ child ∈ document.children start :=
      and_iff_right ⟨data, isElement, shown⟩
    rw [List.mem_cons, List.mem_append, ihBelow, ih, List.exists_mem_cons_iff, ← or_assoc]
    refine or_congr_left ?_
    rw [Relation.ReflTransGen.cases_head_iff]
    constructor
    · rintro (rfl | ⟨child, listed, reached, visible⟩)
      · exact ⟨.inl rfl, notHidden⟩
      · exact ⟨.inr ⟨child, (goes child).mpr listed, reached⟩, visible⟩
    · rintro ⟨rfl | ⟨child, step, reached⟩, visible⟩
      · exact .inl rfl
      · exact .inr ⟨child, (goes child).mp step, reached, visible⟩

end Document.Shows

/-! ### Flaws -/

namespace Content

/-- The failure of a host's value for a property, if it is to be set and has no translation. -/
def valueFailure? (host : ComputedStyle) (id : Nat) (property : Style.Property) :
    Option Style.InvalidValue :=
  (offered? host id property).bind fun raw => failure? (Style.ofComputed property .element raw)

/-- The first failure of the values that the host is asked for. -/
def firstFailure? (computed : Option ComputedStyle) (id : Nat) : Option Style.InvalidValue :=
  computed.bind fun host => Style.Property.computed.findSome? (valueFailure? host id)

theorem valueFailure?_eq_some_iff {host : ComputedStyle} {id : Nat} {property : Style.Property}
    {failure : Style.InvalidValue} :
    valueFailure? host id property = some failure ↔
      ∃ raw, host.Untranslatable id property raw ∧ failure = ⟨property, raw⟩ := by
  rw [valueFailure?, offered?, Option.bind_eq_some_iff]
  simp only [Option.filter_eq_some_iff, failure?_eq_some_iff, decide_eq_true_eq]
  refine exists_congr fun raw => ?_
  constructor
  · rintro ⟨⟨offered, filled⟩, failed⟩
    refine ⟨⟨offered, filled, fun translation translated => ?_⟩,
      (Style.ofComputed_eq_error_iff.mp failed).1⟩
    rw [failed] at translated
    cases translated
  · rintro ⟨⟨offered, filled, untranslated⟩, rfl⟩
    refine ⟨⟨offered, filled⟩, ?_⟩
    cases result : Style.ofComputed property .element raw with
    | ok translation => exact absurd result (untranslated translation)
    | error failure => rw [(Style.ofComputed_eq_error_iff.mp result).1]

theorem valueFailure?_eq_none_iff {host : ComputedStyle} {id : Nat} {property : Style.Property} :
    valueFailure? host id property = none ↔
      ∀ raw, ¬ host.Untranslatable id property raw := by
  simp only [Option.eq_none_iff_forall_ne_some, ne_eq, valueFailure?_eq_some_iff]
  constructor
  · exact fun none raw untranslatable => none ⟨property, raw⟩ ⟨raw, untranslatable, rfl⟩
  · rintro none failure ⟨raw, untranslatable, -⟩
    exact none raw untranslatable

theorem failure?_addComputed (host : ComputedStyle) (id : Nat) (style : Style.Map)
    (property : Style.Property) :
    failure? (addComputed host id style property) = valueFailure? host id property := by
  rw [addComputed, valueFailure?, offered?]
  cases host.value? id property.cssName with
  | none => rfl
  | some raw =>
    by_cases empty : raw = ""
    · rw [Option.filter_some_neg (by simpa using empty)]
      simp only [empty, if_true]
      rfl
    · rw [Option.filter_some_pos (by simpa using empty)]
      simp only [empty, if_false]
      exact failure?_map _ _

/-- **Of the values of the host the first without a translation counts**, whatever the style is. -/
theorem failure?_withComputed (computed : Option ComputedStyle) (id : Nat) (style : Style.Map) :
    failure? (withComputed computed id style) = firstFailure? computed id := by
  cases computed with
  | none => rfl
  | some host => exact failure?_foldlM (failure?_addComputed host id) _ style

theorem firstFailure?_eq_some_iff {id : Nat} {failure : Style.InvalidValue} :
    firstFailure? computed id = some failure ↔
      ∃ host before property after raw, computed = some host ∧
        Style.Property.computed = before ++ property :: after ∧
        (∀ earlier ∈ before, ∀ other, ¬ host.Untranslatable id earlier other) ∧
        host.Untranslatable id property raw ∧ failure = ⟨property, raw⟩ := by
  rw [firstFailure?, Option.bind_eq_some_iff]
  simp only [List.findSome?_eq_some_iff, valueFailure?_eq_some_iff, valueFailure?_eq_none_iff]
  constructor
  · rintro ⟨host, isHost, before, property, after, split, ⟨raw, refused, same⟩, first⟩
    exact ⟨host, before, property, after, raw, isHost, split, first, refused, same⟩
  · rintro ⟨host, before, property, after, raw, isHost, split, first, refused, same⟩
    exact ⟨host, isHost, before, property, after, split, ⟨raw, refused, same⟩, first⟩

theorem firstFailure?_eq_none_iff {id : Nat} :
    firstFailure? computed id = none ↔
      ∀ host, computed = some host → ∀ property ∈ Style.Property.computed, ∀ raw,
        ¬ host.Untranslatable id property raw := by
  rw [firstFailure?, Option.bind_eq_none_iff]
  simp only [List.findSome?_eq_none_iff, valueFailure?_eq_none_iff]

end Content

namespace Document

variable (document : Document) (computed : Option ComputedStyle)

/-- The flaw of a visible node, if it has one. -/
def flaw? (id : Nat) : Option BuildError :=
  match document.get? id with
  | none => some (.unsupportedKind "missing")
  | some node =>
    match node.kind with
    | .text _ => none
    | .comment _ => none
    | .element _ => (firstFailure? computed id).map .invalidValue
    | kind => some (.unsupportedKind kind.label)

variable {document computed}

theorem Flaw.of_flaw? {id : Nat} {error : BuildError}
    (flawed : document.flaw? computed id = some error) : document.Flaw computed id error := by
  unfold flaw? at flawed
  split at flawed
  · next found =>
    obtain rfl := Option.some.inj flawed
    exact .missing found
  · next node found =>
    split at flawed
    · cases flawed
    · cases flawed
    · next data kind =>
      obtain ⟨failure, failed, rfl⟩ := Option.map_eq_some_iff.mp flawed
      obtain ⟨host, before, property, after, raw, isHost, split, first, refused, rfl⟩ :=
        firstFailure?_eq_some_iff.mp failed
      exact .value isHost (element?_eq_some_iff.mpr ⟨node, found, kind⟩) split first refused
    · next notText notComment notElement =>
      obtain rfl := Option.some.inj flawed
      refine .kind found ?_
      cases kind : node.kind with
      | document => exact .inl rfl
      | doctype name => exact .inr ⟨name, rfl⟩
      | text shown => exact absurd kind (notText shown)
      | comment remark => exact absurd kind (notComment remark)
      | element data => exact absurd kind (notElement data)

theorem flaw?_eq_some_iff {id : Nat} {error : BuildError} :
    document.flaw? computed id = some error ↔ document.Flaw computed id error := by
  refine ⟨Flaw.of_flaw?, fun flaw => ?_⟩
  cases flaw with
  | missing found => simp only [flaw?, found]
  | kind found other =>
    rcases other with kind | ⟨name, kind⟩
    · simp only [flaw?, found, kind]
    · simp only [flaw?, found, kind]
  | value isHost isElement split first refused =>
    obtain ⟨node, found, kind⟩ := element?_eq_some_iff.mp isElement
    have failed := firstFailure?_eq_some_iff.mpr
      ⟨_, _, _, _, _, isHost, split, first, refused, rfl⟩
    simp only [flaw?, found, kind, failed, Option.map_some]

/-- **A node without a flaw is sound.** -/
theorem flaw?_eq_none_iff {id : Nat} :
    document.flaw? computed id = none ↔ document.IsSound computed id := by
  constructor
  · intro flawless
    unfold flaw? at flawless
    split at flawless
    · cases flawless
    · next node found =>
      have elementOnly {data : Element} (isElement : document.element? id = some data) :
          node.kind = .element data := by
        obtain ⟨other, same, kind⟩ := element?_eq_some_iff.mp isElement
        rw [found] at same
        rwa [Option.some.inj same]
      split at flawless
      · next shown kind =>
        refine ⟨⟨node, found, .inl ⟨shown, kind⟩⟩, fun host data _ isElement => ?_⟩
        cases kind.symm.trans (elementOnly isElement)
      · next remark kind =>
        refine ⟨⟨node, found, .inr (.inl ⟨remark, kind⟩)⟩, fun host data _ isElement => ?_⟩
        cases kind.symm.trans (elementOnly isElement)
      · next data kind =>
        refine ⟨⟨node, found, .inr (.inr ⟨data, kind⟩)⟩, fun host other isHost _ => ?_⟩
        exact firstFailure?_eq_none_iff.mp (Option.map_eq_none_iff.mp flawless) host isHost
      · cases flawless
  · rintro ⟨⟨node, found, kind⟩, values⟩
    rcases kind with ⟨shown, kind⟩ | ⟨remark, kind⟩ | ⟨data, kind⟩
    · simp only [flaw?, found, kind]
    · simp only [flaw?, found, kind]
    · have translated : firstFailure? computed id = none :=
        firstFailure?_eq_none_iff.mpr fun host isHost =>
          values host data isHost (element?_eq_some_iff.mpr ⟨node, found, kind⟩)
      simp only [flaw?, found, kind, translated, Option.map_none]

end Document

/-! ### Looking at the visible nodes -/

namespace Content

/-- **What a visible node does to the building**: it reports what its `style` attribute gives rise
to, and ends the building if it has a flaw. -/
def look (document : Document) (computed : Option ComputedStyle) (id : Nat) : Building Unit :=
  ExceptT.mk ⟨(document.flaw? computed id).elim (.ok ()) .error, document.attributeReports id⟩

/-- Behind a node without a flaw the building goes on. -/
theorem run_look_bind_of_sound {id : Nat} (sound : document.flaw? computed id = none)
    (next : Building Unit) :
    (look document computed id >>= fun _ => next).run =
      ⟨next.run.value, document.attributeReports id ++ next.run.diagnostics⟩ := by
  rw [look, sound]
  rfl

/-- A flaw is the last that building comes to. -/
theorem run_look_bind_of_flaw {id : Nat} {error : BuildError}
    (flawed : document.flaw? computed id = some error) (next : Building Unit) :
    (look document computed id >>= fun _ => next).run =
      ⟨.error error, document.attributeReports id⟩ := by
  rw [look, flawed]
  show Reported.mk _ (document.attributeReports id ++ []) = _
  rw [List.append_nil]
  rfl

/-- Nodes without a flaw report one after the other. -/
theorem run_forM_look_of_sound {ids : List Nat}
    (sound : ∀ id ∈ ids, document.flaw? computed id = none) :
    (forM ids (look document computed)).run =
      ⟨.ok (), ids.flatMap document.attributeReports⟩ := by
  induction ids with
  | nil => rfl
  | cons first rest ih =>
    obtain ⟨here, later⟩ := List.forall_mem_cons.mp sound
    rw [List.forM_cons, run_look_bind_of_sound here, ih later, List.flatMap_cons]

/-- The first flaw ends the building, behind the reports up to its node. -/
theorem run_forM_look_of_flaw {before after : List Nat} {first : Nat} {error : BuildError}
    (sound : ∀ id ∈ before, document.flaw? computed id = none)
    (flawed : document.flaw? computed first = some error) :
    (forM (before ++ first :: after) (look document computed)).run =
      ⟨.error error, (before ++ [first]).flatMap document.attributeReports⟩ := by
  induction before with
  | nil =>
    rw [List.nil_append, List.forM_cons, run_look_bind_of_flaw flawed, List.nil_append,
      List.flatMap_singleton]
  | cons earlier before ih =>
    obtain ⟨here, later⟩ := List.forall_mem_cons.mp sound
    rw [List.cons_append, List.forM_cons, run_look_bind_of_sound here, ih later, List.cons_append,
      List.flatMap_cons]

/-- Styling an element fails by its flaw, and reports what its attribute gives rise to. -/
theorem discard_elementStyle {id : Nat} {node : Node} {data : Element}
    (found : document.get? id = some node) (kind : node.kind = .element data) :
    (fun _ => ()) <$> elementStyle computed id data = look document computed id := by
  have isElement := Document.element?_eq_some_iff.mpr ⟨node, found, kind⟩
  have fails := failure?_withComputed computed id (attributeStyle data).value
  apply ExceptT.ext
  rw [ExceptT.run_map, run_elementStyle, look]
  simp only [Document.flaw?, found, kind, Document.attributeReports, isElement]
  rw [← fails]
  show Reported.mk (Except.map (fun _ => ()) _) ((attributeStyle data).diagnostics ++ []) = _
  rw [List.append_nil]
  cases withComputed computed id (attributeStyle data).value <;> rfl

/-- Two computations one after the other, of which only the effects are kept. -/
theorem discard_bind {α β γ : Type} (first : Building α) (next : Building β) (make : α → β → γ) :
    (fun _ => ()) <$> (first >>= fun a => next >>= fun b => pure (make a b)) =
      ((fun _ => ()) <$> first >>= fun _ => (fun _ => ()) <$> next) := by
  simp only [map_eq_pure_bind, bind_assoc, pure_bind]

/-- **That some work does no more than to look at the visible nodes** of a walk from some nodes on,
results aside. -/
def LooksFrom (document : Document) (computed : Option ComputedStyle) (ids : List Nat) {α : Type}
    (work : Building α) : Prop :=
  ∃ visible, document.Shows computed ids visible ∧
    (fun _ => ()) <$> work = forM visible (look document computed)

theorem LooksFrom.mapM {α : Type} {step : Nat → Building α} {ids : List Nat}
    (each : ∀ id ∈ ids, LooksFrom document computed [id] (step id)) :
    LooksFrom document computed ids (ids.mapM step) := by
  induction ids with
  | nil => exact ⟨[], .nil, rfl⟩
  | cons first rest ih =>
    obtain ⟨here, later⟩ := List.forall_mem_cons.mp each
    obtain ⟨visible, shows, same⟩ := here
    obtain ⟨others, showsOthers, sameOthers⟩ := ih later
    refine ⟨visible ++ others, shows.append showsOthers, ?_⟩
    rw [List.mapM_cons, discard_bind, same, sameOthers, List.forM_append]

/-- One generation at a node that is no element. -/
theorem discard_convert_of_leaf {depth id : Nat} (noElement : document.element? id = none) :
    (fun _ => ()) <$> convert document computed (depth + 1) id = look document computed id := by
  rw [convert, look]
  simp only [Document.flaw?, Document.attributeReports, noElement]
  cases found : document.get? id with
  | none => rfl
  | some node =>
    obtain ⟨kind, parent, children⟩ := node
    cases kind with
    | element data =>
      rw [Document.element?, found] at noElement
      cases noElement
    | _ => rfl

/-- One generation at an element that is not hidden. -/
theorem discard_convert_of_element {depth id : Nat} {data : Element}
    (isElement : document.element? id = some data) (shown : isHidden computed id data = false) :
    (fun _ => ()) <$> convert document computed (depth + 1) id =
      (look document computed id >>= fun _ =>
        (fun _ => ()) <$> (document.children id).mapM (convert document computed depth)) := by
  obtain ⟨node, found, kind⟩ := Document.element?_eq_some_iff.mp isElement
  rw [convert, Document.children, found]
  simp only [kind, shown, Bool.false_eq_true, if_false]
  rw [discard_bind, discard_elementStyle found kind]

/-- One generation at an element that is hidden. -/
theorem discard_convert_of_hidden {depth id : Nat} {data : Element}
    (isElement : document.element? id = some data) (hidden : isHidden computed id data = true) :
    (fun _ => ()) <$> convert document computed (depth + 1) id = (pure () : Building Unit) := by
  obtain ⟨node, found, kind⟩ := Document.element?_eq_some_iff.mp isElement
  rw [convert, found]
  simp only [kind, hidden, if_true]
  rfl

/-- **One generation looks at its node, and then at what is visible below it.** -/
theorem LooksFrom.convert_succ {depth id : Nat}
    (below : ∀ child, document.IsShownAbove computed id child →
      LooksFrom document computed [child] (convert document computed depth child)) :
    LooksFrom document computed [id] (convert document computed (depth + 1) id) := by
  cases isElement : document.element? id with
  | none =>
    refine ⟨[id], .leaf isElement .nil, ?_⟩
    rw [discard_convert_of_leaf isElement, List.forM_cons, List.forM_nil, bind_pure_unit]
  | some data =>
    cases hidden : isHidden computed id data with
    | true => exact ⟨[], .hidden isElement hidden .nil, discard_convert_of_hidden isElement hidden⟩
    | false =>
      obtain ⟨visible, shows, same⟩ := LooksFrom.mapM fun child listed =>
        below child ⟨⟨data, isElement, hidden⟩, listed⟩
      refine ⟨id :: (visible ++ []), .element isElement hidden shows .nil, ?_⟩
      rw [discard_convert_of_element isElement hidden, same, List.append_nil, List.forM_cons]

/-! ### What work that looks at visible nodes comes to -/

section

variable {α : Type} {work : Building α} {visible : List Nat}

theorem run_discard (work : Building α) :
    ((fun _ => ()) <$> work : Building Unit).run =
      ⟨work.outcome.map fun _ => (), work.run.diagnostics⟩ := by
  rw [ExceptT.run_map]
  show Reported.mk _ (work.run.diagnostics ++ []) = _
  rw [List.append_nil]
  rfl

/-- It fails with the first flaw. -/
theorem failure?_of_looks (same : (fun _ => ()) <$> work = forM visible (look document computed)) :
    failure? work.outcome = visible.findSome? (document.flaw? computed) := by
  have run := congrArg (fun looked : Building Unit => looked.run.value) same
  simp only [run_discard] at run
  rw [← failure?_map fun _ => (), run]
  cases search : visible.findSome? (document.flaw? computed) with
  | none =>
    rw [run_forM_look_of_sound (List.findSome?_eq_none_iff.mp search)]
    rfl
  | some error =>
    obtain ⟨before, first, after, rfl, flawed, sound⟩ := List.findSome?_eq_some_iff.mp search
    rw [run_forM_look_of_flaw sound flawed]
    rfl

theorem diagnostics_of_looks
    (same : (fun _ => ()) <$> work = forM visible (look document computed)) :
    work.run.diagnostics = (forM visible (look document computed)).run.diagnostics := by
  have run := congrArg (fun looked : Building Unit => looked.run.diagnostics) same
  simpa only [run_discard] using run

/-- It reports what the visible elements give rise to, up to the first flaw. -/
theorem isPrefix_diagnostics_forM_look (visible : List Nat) :
    (forM visible (look document computed)).run.diagnostics <+:
      visible.flatMap document.attributeReports := by
  cases search : visible.findSome? (document.flaw? computed) with
  | none =>
    rw [run_forM_look_of_sound (List.findSome?_eq_none_iff.mp search)]
  | some error =>
    obtain ⟨before, first, after, rfl, flawed, sound⟩ := List.findSome?_eq_some_iff.mp search
    rw [run_forM_look_of_flaw sound flawed]
    exact ⟨after.flatMap document.attributeReports, by simp⟩

end

end Content

namespace Document.AcyclicShownFrom

variable {root : Nat}

/-- **Building does no more than to look at the visible nodes.** -/
theorem looksFrom_ofDocument (acyclic : document.AcyclicShownFrom computed root) :
    LooksFrom document computed [root] (ofDocument document computed root) :=
  acyclic.of_generations
    (motive := fun depth id =>
      LooksFrom document computed [id] (convert document computed depth id))
    fun _ _ below => LooksFrom.convert_succ below

/-- **What building comes to**: it succeeds just if every visible node is sound, it fails with the
flaw of the first one that is not, and it reports what the `style` attributes of the visible
elements give rise to, where it fails those of the first ones. -/
theorem ofDocument_visible (acyclic : document.AcyclicShownFrom computed root) :
    ∃ visible, (∀ others, document.Shows computed [root] others ↔ others = visible) ∧
      (∀ id, id ∈ visible ↔
        Relation.ReflTransGen (document.IsShownAbove computed) root id ∧
          ¬ document.IsHiddenElement computed id) ∧
      ((∃ content, (ofDocument document computed root).outcome = .ok content) ↔
        ∀ id ∈ visible, document.IsSound computed id) ∧
      (∀ error, (ofDocument document computed root).outcome = .error error ↔
        ∃ before first after, visible = before ++ first :: after ∧
          document.Flaw computed first error ∧ ∀ id ∈ before, document.IsSound computed id) ∧
      (∀ content, (ofDocument document computed root).outcome = .ok content →
        (ofDocument document computed root).run.diagnostics =
          visible.flatMap document.attributeReports) ∧
      (ofDocument document computed root).run.diagnostics <+:
        visible.flatMap document.attributeReports := by
  obtain ⟨visible, shows, same⟩ := acyclic.looksFrom_ofDocument
  have fails := failure?_of_looks same
  have reports := diagnostics_of_looks same
  have succeeds : (∃ content, (ofDocument document computed root).outcome = .ok content) ↔
      ∀ id ∈ visible, document.IsSound computed id := by
    rw [← failure?_eq_none_iff, fails, List.findSome?_eq_none_iff]
    simp only [flaw?_eq_none_iff]
  refine ⟨visible, fun others => ⟨shows.unique, ?_⟩, fun id => ?_, succeeds, fun error => ?_,
    fun content built => ?_, ?_⟩
  · rintro rfl
    exact shows
  · rw [shows.mem_iff, List.exists_mem_cons_iff]
    simp
  · rw [← failure?_eq_some_iff, fails, List.findSome?_eq_some_iff]
    simp only [flaw?_eq_some_iff, flaw?_eq_none_iff]
  · have sound : ∀ id ∈ visible, document.flaw? computed id = none := fun id member =>
      flaw?_eq_none_iff.mpr (succeeds.mp ⟨content, built⟩ id member)
    rw [reports, run_forM_look_of_sound sound]
  · rw [reports]
    exact isPrefix_diagnostics_forM_look visible

end Document.AcyclicShownFrom

/-- A value of the host that has no translation comes before a document type inside the same
element, and behind what the attributes report up to there. -/
theorem Document.ofDocument_visible_value :
    let host : ComputedStyle := ComputedStyle.empty.set 3 "color" "\"red\""
    let document : Document := ⟨#[⟨.document, none, [1]⟩,
      ⟨.element ⟨"DIV", .ofList [("style", "zoom: 2")]⟩, some 0, [2, 3]⟩, ⟨.text "x", some 1, []⟩,
      ⟨.element ⟨"p", .empty⟩, some 1, [4]⟩, ⟨.doctype "html", some 3, []⟩]⟩
    document.AcyclicShownFrom (some host) 1 ∧
      (Content.ofDocument document (some host) 1).outcome =
        .error (.invalidValue ⟨.color, "\"red\""⟩) ∧
      (Content.ofDocument document (some host) 1).run.diagnostics =
        [.unsupportedProperty "div" "zoom" "2"] := by
  intro host document
  have acyclic : document.AcyclicShownFrom (some host) 1 := by
    refine AcyclicShownFrom.of_lt (fun above below step => ?_) 1
    obtain ⟨⟨data, found, -⟩, listed⟩ := step
    match above with
    | 0 => cases found
    | 1 =>
      have places : below = 2 ∨ below = 3 := by
        simpa [IsAbove, children, get?, document] using listed
      omega
    | 2 => cases found
    | 3 =>
      have place : below = 4 := by simpa [IsAbove, children, get?, document] using listed
      omega
    | 4 | above + 5 => cases found
  have inside : document.Shows (some host) [2, 3] (2 :: 3 :: ([4] ++ [])) :=
    .leaf rfl (.element rfl (by decide +kernel) (.leaf rfl .nil) .nil)
  have shows : document.Shows (some host) [1] (1 :: ([2, 3, 4] ++ [])) :=
    .element rfl (by decide +kernel) inside .nil
  obtain ⟨visible, walks, -, -, fails, -⟩ := acyclic.ofDocument_visible
  obtain rfl : [1, 2, 3, 4] = visible := (walks _).mp shows
  have error := (fails (.invalidValue ⟨.color, "\"red\""⟩)).mpr
    ⟨[1, 2], 3, [4], rfl, flaw?_eq_some_iff.mp (by decide +kernel), fun id member =>
      flaw?_eq_none_iff.mp (by
        rcases List.mem_pair.mp member with rfl | rfl <;> decide +kernel)⟩
  exact ⟨acyclic, error, by decide +kernel⟩

end PagedHtml
