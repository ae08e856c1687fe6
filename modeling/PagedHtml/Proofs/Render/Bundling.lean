/-
**How what is in an element is bundled.**

The children of an element that does not itself flow inline are cut into the maximal runs of those
that do and the others, each alone (`IsCut`). Each run becomes one run of text without a style,
unless all of it is blank, and each of the others is what it is rendered as (`part?`). Children of
inline elements are left as they are.

* `isCut_iff`: children can be cut in one way only, which is how a list is split by a relation;
* `runs_induction`: what holds of a run, and of a run before another child if it holds of what is
  behind that, holds of all children;
* `bundle_eq`: bundling is cutting. No two runs are neighbours (`isChain_parts`), and all that is
  not a blank in a run keeps its place (`filter_children_parts`);
* `render_bundled`: what a renderer gets, in any registry.
-/

import PagedHtml.Proofs.Render.Gathering
import Mathlib.Data.List.SplitBy

namespace PagedHtml.Render

/-! ### Cutting -/

/-- A rendered child of an element, with whether it flows inline. -/
abbrev Child := Bool × Primitive

/-- A part of what is in an element: a run of text made of neighbouring inline children, or any
other child. -/
inductive Part where
  | run (primitives : List Primitive)
  | block (primitive : Primitive)

namespace Part

/-- What a renderer gets for a part: for a run one text without a style. -/
def primitive : Part → Primitive
  | run primitives => .text [] primitives
  | block primitive => primitive

/-- The children that a part holds. -/
def children : Part → List Child
  | run primitives => primitives.map fun primitive => (true, primitive)
  | block primitive => [(false, primitive)]

/-- That a part is a run of text. -/
def IsRun (part : Part) : Prop := ∃ primitives, part = run primitives

theorem not_isRun_block (primitive : Primitive) : ¬ (block primitive).IsRun := nofun

end Part

/-- That there are some children and all of them flow inline. -/
def IsInline (stretch : List Child) : Prop := stretch ≠ [] ∧ ∀ child ∈ stretch, child.1 = true

/-- **That children are cut** into runs of inline ones, none of which could be longer, and the
others alone. -/
structure IsCut (children : List Child) (stretches : List (List Child)) : Prop where
  flatten_eq : stretches.flatten = children
  each : ∀ stretch ∈ stretches, IsInline stretch ∨ ∃ primitive, stretch = [(false, primitive)]
  apart : stretches.IsChain fun first second => ¬ (IsInline first ∧ IsInline second)

/-- The part that a stretch of children becomes, if it is not a run of blanks. -/
def part? : List Child → Option Part
  | [(false, primitive)] => some (.block primitive)
  | stretch =>
    if stretch.all fun child => isBlank child.2 then none else some (.run (stretch.map Prod.snd))

/-- Whether neighbours belong to one run. -/
def together (first second : Child) : Bool := first.1 && second.1

/-- The parts of what is in an element. -/
def parts (children : List Child) : List Part := (children.splitBy together).filterMap part?

/-- Whether a child is more than a blank in a run. -/
def isKept (child : Child) : Bool := !(child.1 && isBlank child.2)

theorem isInline_of_isChain {stretch : List Child} (chain : stretch.IsChain (together · ·))
    (nonempty : stretch ≠ []) :
    IsInline stretch ∨ ∃ primitive, stretch = [(false, primitive)] := by
  induction stretch with
  | nil => exact absurd rfl nonempty
  | cons first rest ih =>
    by_cases alone : rest = []
    · subst alone
      obtain ⟨inline, primitive⟩ := first
      cases inline with
      | true => exact .inl ⟨nonempty, List.forall_mem_singleton.mpr rfl⟩
      | false => exact .inr ⟨primitive, rfl⟩
    · obtain ⟨second, others, rfl⟩ := List.exists_cons_of_ne_nil alone
      obtain ⟨both, chain⟩ := List.isChain_cons_cons.mp chain
      obtain ⟨inline, also⟩ := (Bool.and_eq_true _ _).mp both
      rcases ih chain alone with ⟨-, all⟩ | ⟨primitive, single⟩
      · exact .inl ⟨nonempty, List.forall_mem_cons.mpr ⟨inline, all⟩⟩
      · rw [(List.cons.inj single).1] at also
        cases also

theorem isChain_of_isInline {stretch : List Child} (inline : IsInline stretch) :
    stretch.IsChain (together · ·) := by
  have pairs : stretch.Pairwise (together · ·) :=
    List.pairwise_of_forall_mem_list fun first member second also =>
      (Bool.and_eq_true _ _).mpr ⟨inline.2 first member, inline.2 second also⟩
  exact pairs.isChain

/-- **Children can be cut in one way only.** -/
theorem isCut_iff {children : List Child} {stretches : List (List Child)} :
    IsCut children stretches ↔ stretches = children.splitBy together := by
  rw [eq_comm, List.splitBy_eq_iff]
  constructor
  · rintro ⟨rfl, each, apart⟩
    have nonempty : ∀ stretch ∈ stretches, stretch ≠ [] := by
      intro stretch member
      rcases each stretch member with inline | ⟨primitive, rfl⟩
      · exact inline.1
      · exact List.cons_ne_nil _ _
    refine ⟨rfl, fun member => nonempty [] member rfl, fun stretch member => ?_, ?_⟩
    · rcases each stretch member with inline | ⟨primitive, rfl⟩
      · exact isChain_of_isInline inline
      · exact List.isChain_singleton _
    · refine List.IsChain.imp_of_mem_imp (fun first second member also different => ?_) apart
      refine ⟨nonempty first member, nonempty second also, ?_⟩
      rcases each first member with inline | ⟨primitive, rfl⟩
      · rcases each second also with other | ⟨primitive, rfl⟩
        · exact absurd ⟨inline, other⟩ different
        · exact Bool.and_false _
      · rfl
  · rintro ⟨rfl, nonempty, chains, ends⟩
    have each : ∀ stretch ∈ stretches, IsInline stretch ∨ ∃ primitive,
        stretch = [(false, primitive)] := by
      intro stretch member
      refine isInline_of_isChain (chains stretch member) ?_
      rintro rfl
      exact nonempty member
    refine ⟨rfl, each, List.IsChain.imp (fun first second => ?_) ends⟩
    rintro ⟨some_first, some_second, different⟩ ⟨inline, also⟩
    rw [together, inline.2 _ (List.getLast_mem some_first),
      also.2 _ (List.head_mem some_second)] at different
    cases different

/-! ### Runs and what is behind them -/

/-- **What holds of a run of inline children, and of a run before another child if it holds of what
is behind that one, holds of all children.** -/
theorem runs_induction {motive : List Child → Prop}
    (run : ∀ primitives : List Primitive,
      motive (primitives.map fun primitive => (true, primitive)))
    (block : ∀ (primitives : List Primitive) (primitive : Primitive) (rest : List Child),
      motive rest →
        motive ((primitives.map fun primitive => (true, primitive)) ++ (false, primitive) :: rest))
    (children : List Child) : motive children := by
  suffices waiting : ∀ primitives : List Primitive,
      motive ((primitives.map fun primitive => (true, primitive)) ++ children) from waiting []
  induction children with
  | nil =>
    intro primitives
    rw [List.append_nil]
    exact run primitives
  | cons child rest ih =>
    intro primitives
    obtain ⟨inline, primitive⟩ := child
    cases inline with
    | true =>
      have longer := ih (primitives ++ [primitive])
      rwa [List.map_append, List.append_assoc] at longer
    | false => exact block primitives primitive rest (ih [])

theorem bundleFrom_run (waiting primitives : List Primitive) (rest : List Child) :
    bundleFrom waiting ((primitives.map fun primitive => (true, primitive)) ++ rest) =
      bundleFrom (waiting ++ primitives) rest := by
  induction primitives generalizing waiting with
  | nil => rw [List.append_nil, List.map_nil, List.nil_append]
  | cons primitive primitives ih =>
    rw [List.map_cons, List.cons_append, bundleFrom, ih, List.append_assoc, List.singleton_append]

theorem isInline_run {primitives : List Primitive} (nonempty : primitives ≠ []) :
    IsInline (primitives.map fun primitive => (true, primitive)) := by
  refine ⟨fun none => nonempty (List.map_eq_nil_iff.mp none), fun child member => ?_⟩
  obtain ⟨primitive, -, rfl⟩ := List.mem_map.mp member
  rfl

theorem part?_of_isInline {stretch : List Child} (inline : IsInline stretch) :
    part? stretch = if stretch.all fun child => isBlank child.2 then none
      else some (.run (stretch.map Prod.snd)) := by
  unfold part?
  split
  · cases inline.2 _ List.mem_cons_self
  · rfl

/-- A run is one part, or none if it is blank. -/
theorem parts_run (primitives : List Primitive) :
    parts (primitives.map fun primitive => (true, primitive)) =
      if primitives.all isBlank then [] else [.run primitives] := by
  by_cases none : primitives = []
  · subst none
    rfl
  · have inline := isInline_run none
    have same : (primitives.map fun primitive => ((true, primitive) : Child)).map Prod.snd =
        primitives := by
      rw [List.map_map]
      exact List.map_id _
    have blank : ((primitives.map fun primitive => ((true, primitive) : Child)).all
        fun child => isBlank child.2) = primitives.all isBlank := List.all_map
    rw [parts, List.splitBy_of_isChain inline.1 (isChain_of_isInline inline), List.filterMap_cons,
      List.filterMap_nil, part?_of_isInline inline, same, blank]
    by_cases nothing : primitives.all isBlank = true
    · rw [if_pos nothing, if_pos nothing]
    · rw [if_neg nothing, if_neg nothing]

/-- A child that does not flow inline is a part of its own. -/
theorem parts_block (before after : List Child) (primitive : Primitive) :
    parts (before ++ (false, primitive) :: after) =
      parts before ++ .block primitive :: parts after := by
  have behind : ((false, primitive) :: after).splitBy together =
      [[(false, primitive)]] ++ after.splitBy together := by
    refine List.splitBy_append (l := [(false, primitive)]) fun child last next _ => ?_
    rw [← Option.mem_some.mp last]
    rfl
  rw [parts, List.splitBy_append_cons after fun child _ => Bool.and_false child.1, behind,
    List.filterMap_append, List.filterMap_append]
  rfl

/-- **Bundling gives the parts**, each as what a renderer gets for it. -/
theorem bundle_eq (children : List Child) :
    bundle children = (parts children).map Part.primitive := by
  induction children using runs_induction with
  | run primitives =>
    have bundled := bundleFrom_run [] primitives []
    rw [List.append_nil, List.nil_append] at bundled
    rw [bundle, bundled, parts_run, bundleFrom, runOf]
    split <;> rfl
  | block primitives primitive rest ih =>
    rw [bundle, bundleFrom_run, List.nil_append, bundleFrom, parts_block, List.map_append,
      List.map_cons, ← ih, parts_run, runOf]
    split <;> rfl

/-- **No two runs are neighbours.** -/
theorem isChain_parts (children : List Child) :
    (parts children).IsChain fun first second => ¬ (first.IsRun ∧ second.IsRun) := by
  have alone (primitives : List Primitive) :
      (parts (primitives.map fun primitive => (true, primitive))).IsChain
        fun first second => ¬ (first.IsRun ∧ second.IsRun) := by
    rw [parts_run]
    split
    · exact List.isChain_nil
    · exact List.isChain_singleton _
  induction children using runs_induction with
  | run primitives => exact alone primitives
  | block primitives primitive rest ih =>
    have isBlock := Part.not_isRun_block primitive
    rw [parts_block, List.isChain_append]
    refine ⟨alone primitives, List.isChain_cons.mpr ⟨fun _ _ both => isBlock both.1, ih⟩, ?_⟩
    intro last _ first isFirst both
    rw [← Option.mem_some.mp isFirst] at both
    exact isBlock both.2

/-- **All that is not a blank in a run keeps its place.** -/
theorem filter_children_parts (children : List Child) :
    ((parts children).flatMap Part.children).filter isKept = children.filter isKept := by
  have alone (primitives : List Primitive) :
      ((parts (primitives.map fun primitive => (true, primitive))).flatMap
        Part.children).filter isKept =
      (primitives.map fun primitive => ((true, primitive) : Child)).filter isKept := by
    rw [parts_run]
    split
    · next blank =>
      rw [eq_comm]
      refine List.filter_eq_nil_iff.mpr fun child member => ?_
      obtain ⟨primitive, inside, rfl⟩ := List.mem_map.mp member
      rw [isKept, List.all_eq_true.mp blank primitive inside]
      exact nofun
    · rw [List.flatMap_singleton, Part.children]
  induction children using runs_induction with
  | run primitives => exact alone primitives
  | block primitives primitive rest ih =>
    rw [parts_block, List.flatMap_append, List.flatMap_cons, List.filter_append, List.filter_append,
      List.filter_append, alone, ih, Part.children, List.filter_cons (x := (false, primitive))]
    rfl

/-! ### Siblings -/

section

variable {composer : Composer} {rules : List StyleRule} {around : List StyledElement} {id : Nat}

theorem renderAll_eq_ok_iff {siblings : List Content} {primitives : List Primitive} :
    composer.renderAll rules around id siblings = .ok primitives ↔
      List.Forall₂ (fun child primitive =>
          composer.render rules around child.1 child.2 = .ok primitive)
        ((Content.siblingIds id siblings).zip siblings) primitives := by
  induction siblings generalizing primitives id with
  | nil =>
    rw [List.zip_nil_right, List.forall₂_nil_left_iff, Composer.renderAll]
    exact ⟨fun same => (Except.ok.inj same).symm, fun same => congrArg Except.ok same.symm⟩
  | cons first rest ih =>
    rw [renderAll_cons_eq_ok_iff, Content.siblingIds, List.zip_cons_cons,
      List.forall₂_cons_left_iff]
    simp only [ih]

/-- The first sibling that cannot be rendered counts. -/
theorem renderAll_eq_error_iff {siblings : List Content} {error : RenderError} :
    composer.renderAll rules around id siblings = .error error ↔
      ∃ before child after,
        (Content.siblingIds id siblings).zip siblings = before ++ child :: after ∧
        (∀ earlier ∈ before, ∃ primitive,
          composer.render rules around earlier.1 earlier.2 = .ok primitive) ∧
        composer.render rules around child.1 child.2 = .error error := by
  have same (siblings : List Content) (id : Nat) :
      failure? (composer.renderAll rules around id siblings) =
        ((Content.siblingIds id siblings).zip siblings).findSome? fun child =>
          failure? (composer.render rules around child.1 child.2) := by
    induction siblings generalizing id with
    | nil => rfl
    | cons first rest ih =>
      rw [Content.siblingIds, List.zip_cons_cons, List.findSome?_cons, ← ih, Composer.renderAll]
      cases composer.render rules around id first with
      | error error => rfl
      | ok primitive => cases composer.renderAll rules around (id + first.size) rest <;> rfl
  rw [← failure?_eq_some_iff, same, List.findSome?_eq_some_iff]
  simp only [failure?_eq_some_iff, failure?_eq_none_iff]
  constructor
  · rintro ⟨before, child, after, split, failed, rendered⟩
    exact ⟨before, child, after, split, rendered, failed⟩
  · rintro ⟨before, child, after, split, rendered, failed⟩
    exact ⟨before, child, after, split, failed, rendered⟩

end

/-! ### What a renderer gets -/

/-- **What the renderer of an element gets for what is in it**, whatever the renderers are and
whatever they look at: the first error there, or else what the children are rendered as, each with
its own number. It gets that as it is for an inline element. For any other element the maximal runs
of inline children are one text each, without a style, and nothing where they are blank, and the
other children stand between them: no two runs are neighbours, and nothing else is lost, said twice
or moved. -/
theorem render_bundled (composer : Composer) (rules : List StyleRule)
    (around : List StyledElement) (id : Nat) (data : StyledElement) (children : List Content) :
    let numbered := (Content.siblingIds (id + 1) children).zip children
    ∃ inside, composer.render rules around id (.element data children) =
        composer.registry.dispatch (composer.contextOf rules around id data children inside) ∧
      (∀ error, inside = .error error ↔
        ∃ before child after, numbered = before ++ child :: after ∧
          (∀ earlier ∈ before, ∃ primitive,
            composer.render rules (data :: around) earlier.1 earlier.2 = .ok primitive) ∧
          composer.render rules (data :: around) child.1 child.2 = .error error) ∧
      ∀ primitives, List.Forall₂ (fun child primitive =>
          composer.render rules (data :: around) child.1 child.2 = .ok primitive)
            numbered primitives →
        if Tag.isInlineName data.tag then inside = .ok primitives
        else
          let rendered := (children.map flowsInline).zip primitives
          ∃ stretches parts, (∀ others, IsCut rendered others ↔ others = stretches) ∧
            parts = stretches.filterMap part? ∧ inside = .ok (parts.map Part.primitive) ∧
            parts.IsChain (fun first second => ¬ (first.IsRun ∧ second.IsRun)) ∧
            (parts.flatMap Part.children).filter isKept = rendered.filter isKept := by
  intro numbered
  refine ⟨(composer.renderAll rules (data :: around) (id + 1) children).map
    (Composer.arrange data children), by rw [Composer.render], fun error => ?_, ?_⟩
  · rw [← renderAll_eq_error_iff, ← failure?_eq_some_iff, failure?_map, failure?_eq_some_iff]
  · intro primitives each
    rw [renderAll_eq_ok_iff.mpr each]
    split
    · next inline => exact congrArg Except.ok (if_pos inline)
    · next notInline =>
      intro rendered
      refine ⟨_, _, fun others => isCut_iff, rfl, ?_, isChain_parts rendered,
        filter_children_parts rendered⟩
      exact congrArg Except.ok ((if_neg notInline).trans (bundle_eq rendered))

/-- The standard renderers, but for bold elements one that says how many children the element around
has. -/
def countingRegistry : Registry :=
  Registry.standard.register .bold fun context =>
    let siblings := (context.outline.parent? context.node).elim [] context.outline.children
    .ok (.literal (toString siblings.length))

/-- A division with blanks, a paragraph, a text and a bold element. -/
def division : Content :=
  .element ⟨"div", .empty, .empty, 0⟩
    [.text "\n", .element ⟨"p", .empty, .empty, 0⟩ [], .text "a",
      .element ⟨"b", .empty, .empty, 0⟩ []]

/-- In a division the text and the bold element behind the paragraph are one run and the blanks
before it are left out. -/
theorem render_bundled_division :
    Composer.compose ⟨countingRegistry, division.outline, false, true, [], .empty⟩ division =
      .ok (.container [.empty] [.container [.empty] [],
        .text [] [.literal "a", .literal "4"]]) := by
  obtain ⟨inside, dispatched, -, bundled⟩ := render_bundled
    ⟨countingRegistry, division.outline, false, true, [], .empty⟩ [] [] 0
    ⟨"div", .empty, .empty, 0⟩ division.children
  have numbers : Content.siblingIds (0 + 1) division.children = [1, 2, 3, 4] := rfl
  have four : toString 4 = "4" := rfl
  rw [numbers] at bundled
  have bundled := bundled
    [.literal "\n", .container [.empty] [], .literal "a", .literal (toString 4)]
    (.cons rfl (.cons rfl (.cons rfl (.cons rfl .nil))))
  rw [if_neg (by decide)] at bundled
  obtain ⟨stretches, parts, cut, rfl, arranged, -⟩ := bundled
  have stretches_eq : [[(true, .literal "\n")], [(false, .container [.empty] [])],
      [(true, .literal "a"), (true, .literal (toString 4))]] = stretches :=
    (cut _).mp (isCut_iff.mpr rfl)
  refine dispatched.trans ?_
  rw [arranged, ← stretches_eq, four]
  rfl

end PagedHtml.Render
