/-
**Where matching decides the meaning of a selector.**

What matches has the meaning of the selector, but matching may have gone past the element that a
child combinator asks for by taking the nearest one for a descendant combinator. That harms no
selector in which child combinators behind a descendant combinator ask for nothing
(`Selector.Steadfast`), and it harms every other selector that anything satisfies at all.

* `holdsNearestAround_of_holdsAround`: such a selector matches wherever its meaning holds, since the
  nearest elements leave as many elements further out as any others;
* `exists_missed`: for any other selector there is a chain on which its meaning holds and which it
  does not match. It is the elements that the selector describes, gone through twice, and between
  the two times one that the child combinator does not take;
* `matchesIn_decides_means_iff_steadfast`: both, for the documents that contents are built from.
-/

import PagedHtml.Proofs.Content.Nested
import PagedHtml.Proofs.Selector.Meaning
import PagedHtml.Proofs.Text.LetterCase

namespace PagedHtml.Selector

/-! ### What compounds ask for -/

/-- A compound that asks for nothing. -/
def IsFree (compound : Compound) : Prop := ∀ simple ∈ compound, simple = .universal

/-- A compound that no element satisfies. -/
def IsVoid (compound : Compound) : Prop := ∀ element, satisfiesAll compound element = false

/-- The compounds of a selector. -/
def compounds (selector : Selector) : List Compound :=
  selector.subject :: selector.around.map Prod.snd

/-- **That the nearest elements are as good as any.** -/
def Steadfast (selector : Selector) : Prop :=
  (∃ compound ∈ selector.compounds, IsVoid compound) ∨
    ∀ step ∈ selector.around.dropWhile (·.1 = .child), step.1 = .child → IsFree step.2

theorem satisfiesAll_of_isFree {compound : Compound} (free : IsFree compound)
    (element : StyledElement) : satisfiesAll compound element = true := by
  refine List.all_eq_true.mpr fun simple member => ?_
  rw [free simple member]
  rfl

/-- An element that fails a condition: one without attributes and with another tag. -/
theorem exists_satisfies_eq_false {simple : SimpleSelector} (asks : simple ≠ .universal) :
    ∃ data : Element, satisfies data.styled simple = false := by
  cases simple with
  | universal => exact absurd rfl asks
  | «class» name =>
    refine ⟨⟨"", .empty⟩, ?_⟩
    show [].contains name = false
    rfl
  | id name => exact ⟨⟨"", .empty⟩, rfl⟩
  | type name =>
    refine ⟨⟨name ++ "-", .empty⟩, ?_⟩
    show (_ == _) = false
    rw [beq_eq_false_iff_ne]
    intro same
    have lengths := congrArg List.length same
    simp [Element.styled, Text.lower] at lengths

theorem exists_satisfiesAll_eq_false {compound : Compound} (asks : ¬ IsFree compound) :
    ∃ data : Element, satisfiesAll compound data.styled = false := by
  simp only [IsFree, not_forall] at asks
  obtain ⟨simple, member, asks⟩ := asks
  obtain ⟨data, fails⟩ := exists_satisfies_eq_false asks
  exact ⟨data, List.all_eq_false.mpr ⟨simple, member, by simp [fails]⟩⟩

/-- What a compound asks for can be had of an element that is built. -/
theorem exists_satisfiesAll {compound : Compound} (satisfiable : ¬ IsVoid compound) :
    ∃ data : Element, satisfiesAll compound data.styled = true := by
  simp only [IsVoid, not_forall, Bool.not_eq_false] at satisfiable
  obtain ⟨element, satisfied⟩ := satisfiable
  refine ⟨⟨element.tag, element.attributes⟩, ?_⟩
  have same : satisfies (Element.styled ⟨element.tag, element.attributes⟩) = satisfies element := by
    funext simple
    cases simple with
    | type name =>
      show Text.equalsIgnoringCase (Text.lower element.tag) name =
        Text.equalsIgnoringCase element.tag name
      rw [Bool.eq_iff_iff, Text.equalsIgnoringCase_iff, Text.equalsIgnoringCase_iff,
        Text.lower_lower]
    | _ => rfl
  rw [satisfiesAll, same]
  exact satisfied

/-! ### Where the nearest elements are as good as any -/

/-- Up to the first element that would do, a list is no longer than up to another one. -/
theorem exists_first {α : Type} {p : α → Bool} {a : α} (holds : p a = true)
    (before rest : List α) :
    ∃ nearer first outer, before ++ a :: rest = nearer ++ first :: outer ∧ p first = true ∧
      (∀ skipped ∈ nearer, p skipped = false) ∧ rest <:+ outer := by
  induction before with
  | nil => exact ⟨[], a, rest, rfl, holds, by simp, List.suffix_rfl⟩
  | cons b before ih =>
    cases here : p b with
    | true =>
      refine ⟨[], b, before ++ a :: rest, rfl, here, by simp, ?_⟩
      exact (List.suffix_cons a rest).trans (List.suffix_append _ _)
    | false =>
      obtain ⟨nearer, first, outer, split, satisfied, skip, shorter⟩ := ih
      refine ⟨b :: nearer, first, outer, by rw [List.cons_append, split]; rfl, satisfied, ?_,
        shorter⟩
      exact List.forall_mem_cons.mpr ⟨here, skip⟩

/-- **Child combinators that ask for nothing are satisfied further in as well as further out.** -/
theorem holdsNearestAround_of_suffix {around : List (Combinator × Compound)}
    (free : ∀ step ∈ around, step.1 = .child → IsFree step.2) {outer chain : List StyledElement}
    (holds : HoldsAround around outer) (further : outer <:+ chain) :
    HoldsNearestAround around chain := by
  induction around generalizing outer chain with
  | nil => trivial
  | cons step more ih =>
    have later := fun step member => free step (List.mem_cons_of_mem _ member)
    obtain ⟨combinator, compound⟩ := step
    obtain ⟨nearer, element, rest, rfl, direct, satisfied, holds⟩ := holds
    obtain ⟨skipped, rfl⟩ := further
    cases combinator with
    | child =>
      obtain rfl := direct rfl
      have every := satisfiesAll_of_isFree (free _ List.mem_cons_self rfl)
      cases skipped with
      | nil =>
        exact ⟨[], element, rest, rfl, fun _ => rfl, every _, by simp,
          ih later holds List.suffix_rfl⟩
      | cons first skipped =>
        refine ⟨[], first, _, rfl, fun _ => rfl, every _, by simp, ih later holds ?_⟩
        exact (List.suffix_cons element rest).trans (List.suffix_append _ _)
    | descendant =>
      rw [← List.append_assoc]
      obtain ⟨nearest, first, outer, split, satisfied, skip, shorter⟩ :=
        exists_first satisfied (skipped ++ nearer) rest
      exact ⟨nearest, first, outer, split, by simp, satisfied, skip, ih later holds shorter⟩

/-- Child combinators before any descendant combinator leave no choice. -/
theorem holdsNearestAround_of_holdsAround {around : List (Combinator × Compound)}
    (free : ∀ step ∈ around.dropWhile (·.1 = .child), step.1 = .child → IsFree step.2)
    {chain : List StyledElement} (holds : HoldsAround around chain) :
    HoldsNearestAround around chain := by
  induction around generalizing chain with
  | nil => trivial
  | cons step more ih =>
    obtain ⟨combinator, compound⟩ := step
    cases combinator with
    | child =>
      obtain ⟨nearer, element, rest, split, direct, satisfied, holds⟩ := holds
      obtain rfl := direct rfl
      exact ⟨[], element, rest, split, direct, satisfied, by simp, ih free holds⟩
    | descendant => exact holdsNearestAround_of_suffix free holds List.suffix_rfl

/-- Where a meaning holds, there are elements for all compounds. -/
theorem not_isVoid_of_holdsAround {around : List (Combinator × Compound)}
    {chain : List StyledElement} (holds : HoldsAround around chain)
    {step : Combinator × Compound} (member : step ∈ around) : ¬ IsVoid step.2 := by
  induction around generalizing chain with
  | nil => cases member
  | cons first more ih =>
    obtain ⟨nearer, element, rest, -, -, satisfied, holds⟩ := holds
    rcases List.mem_cons.mp member with rfl | later
    · intro void
      rw [void element] at satisfied
      cases satisfied
    · exact ih holds later

/-! ### Where they are not -/

section

variable {around more : List (Combinator × Compound)} {pick : Compound → StyledElement}
  {further : List StyledElement}

/-- Elements right around one another, one for each compound. -/
def picked (pick : Compound → StyledElement) (around : List (Combinator × Compound)) :
    List StyledElement :=
  around.map fun step => pick step.2

theorem holdsAround_picked (good : ∀ step ∈ around, satisfiesAll step.2 (pick step.2) = true)
    (holds : HoldsAround more further) :
    HoldsAround (around ++ more) (picked pick around ++ further) := by
  induction around with
  | nil => exact holds
  | cons step around ih =>
    obtain ⟨here, later⟩ := List.forall_mem_cons.mp good
    exact ⟨[], pick step.2, _, rfl, fun _ => rfl, here, ih later⟩

/-- The nearest elements that would do are those right around one another. -/
theorem matchesAround_picked (good : ∀ step ∈ around, satisfiesAll step.2 (pick step.2) = true)
    (more : List (Combinator × Compound)) (further : List StyledElement) :
    matchesAround (around ++ more) (picked pick around ++ further) =
      matchesAround more further := by
  induction around with
  | nil => rfl
  | cons step around ih =>
    obtain ⟨here, later⟩ := List.forall_mem_cons.mp good
    obtain ⟨combinator, compound⟩ := step
    rw [← ih later, List.cons_append, picked, List.map_cons, List.cons_append]
    cases combinator with
    | child => rw [matchesAround, here, Bool.true_and, picked]
    | descendant => rw [matchesAround, List.dropWhile_cons_of_neg (by simp [here]), picked]

/-- **A chain on which the nearest element is one too near**, where a child combinator asks for
something behind a descendant combinator. -/
theorem exists_missed (pick : Compound → StyledElement)
    {inner between outside : List (Combinator × Compound)} {compound asked : Compound}
    {other : StyledElement}
    (split : around = inner ++ (.descendant, compound) :: (between ++ (.child, asked) :: outside))
    (good : ∀ step ∈ around, satisfiesAll step.2 (pick step.2) = true)
    (bad : satisfiesAll asked other = false) :
    ∃ chain, (∀ element ∈ chain, element = other ∨ ∃ step ∈ around, element = pick step.2) ∧
      HoldsAround around chain ∧ matchesAround around chain = false := by
  subst split
  obtain ⟨goodInner, goodHere, goodBeyond⟩ :
      (∀ step ∈ inner, satisfiesAll step.2 (pick step.2) = true) ∧
        satisfiesAll compound (pick compound) = true ∧
        ∀ step ∈ between ++ (.child, asked) :: outside,
          satisfiesAll step.2 (pick step.2) = true := by
    rw [List.forall_mem_append, List.forall_mem_cons] at good
    exact good
  have goodBetween := (List.forall_mem_append.mp goodBeyond).1
  -- The second time through, the descendant combinator has to skip what it takes at first.
  refine ⟨picked pick inner ++ pick compound :: (picked pick between ++ other ::
    pick compound :: picked pick (between ++ (.child, asked) :: outside)), ?_, ?_, ?_⟩
  · intro element member
    simp only [picked, List.mem_append, List.mem_cons, List.mem_map, List.map_append,
      List.map_cons] at member ⊢
    grind
  · refine holdsAround_picked goodInner
      ⟨pick compound :: (picked pick between ++ [other]), pick compound,
        picked pick (between ++ (.child, asked) :: outside), by simp, by simp, goodHere, ?_⟩
    have holds : HoldsAround (_ ++ []) (_ ++ []) := holdsAround_picked goodBeyond trivial
    rwa [List.append_nil, List.append_nil] at holds
  · have goodNearest : ∀ step ∈ inner ++ (.descendant, compound) :: between,
        satisfiesAll step.2 (pick step.2) = true :=
      List.forall_mem_append.mpr ⟨goodInner, List.forall_mem_cons.mpr ⟨goodHere, goodBetween⟩⟩
    have twice := matchesAround_picked goodNearest ((.child, asked) :: outside)
      (other :: pick compound :: picked pick (between ++ (.child, asked) :: outside))
    rw [matchesAround, bad, Bool.false_and] at twice
    rw [← twice]
    simp [picked]

end

/-- Behind the first descendant combinator of a selector that is not steadfast is a child
combinator that asks for something. -/
theorem exists_split_of_not_steadfast {selector : Selector} (not : ¬ selector.Steadfast) :
    (∀ compound ∈ selector.compounds, ¬ IsVoid compound) ∧
      ∃ inner compound between asked outside, ¬ IsFree asked ∧
        selector.around =
          inner ++ (.descendant, compound) :: (between ++ (.child, asked) :: outside) := by
  rw [Steadfast, not_or] at not
  obtain ⟨satisfiable, asking⟩ := not
  refine ⟨fun compound member void => satisfiable ⟨compound, member, void⟩, ?_⟩
  simp only [not_forall] at asking
  obtain ⟨⟨combinator, asked⟩, member, isChild, asks⟩ := asking
  cases dropped : selector.around.dropWhile (·.1 = .child) with
  | nil =>
    rw [dropped] at member
    cases member
  | cons first rest =>
    obtain ⟨inner, split, -, stop⟩ := dropWhile_eq_cons dropped
    obtain ⟨nearest, compound⟩ := first
    have descendant : nearest = .descendant := by
      cases nearest with
      | child => simp at stop
      | descendant => rfl
    rw [dropped] at member
    have later : (combinator, asked) ∈ rest := by
      rcases List.mem_cons.mp member with same | later
      · rw [(Prod.mk.inj same).1, descendant] at isChild
        cases isChild
      · exact later
    obtain ⟨between, outside, rfl⟩ := List.append_of_mem later
    subst descendant
    obtain rfl : combinator = .child := isChild
    exact ⟨inner, compound, between, asked, outside, asks, split⟩

/-! ### Matching on the content of documents -/

/-- **A selector that is not steadfast misses an element of some document.** -/
theorem exists_missed_of_not_steadfast {selector : Selector} (not : ¬ selector.Steadfast) :
    ∃ document content id,
      (Content.ofDocument document (some .empty) 1).outcome = .ok content ∧
        selector.Means content.outline id ∧ id ∉ selector.matchesIn content.outline := by
  obtain ⟨satisfiable, inner, compound, between, asked, outside, asks, split⟩ :=
    exists_split_of_not_steadfast not
  have possible (compound : Compound) : ∃ data : Element,
      compound ∈ selector.compounds → satisfiesAll compound data.styled = true := by
    by_cases member : compound ∈ selector.compounds
    · obtain ⟨data, satisfied⟩ := exists_satisfiesAll (satisfiable compound member)
      exact ⟨data, fun _ => satisfied⟩
    · exact ⟨⟨"", .empty⟩, fun listed => absurd listed member⟩
  choose pick good using possible
  obtain ⟨other, bad⟩ := exists_satisfiesAll_eq_false asks
  obtain ⟨chain, built, holds, missed⟩ := exists_missed (fun asked => (pick asked).styled)
    split (fun step member => good step.2 (List.mem_cons_of_mem _ (List.mem_map_of_mem member))) bad
  -- Every element of the chain can be built, so the chain can be had in a document.
  obtain ⟨elements, rfl⟩ : chain ∈ Set.range (List.map Element.styled) := by
    rw [Set.range_list_map]
    intro element member
    rcases built element member with rfl | ⟨step, -, rfl⟩
    · exact ⟨other, rfl⟩
    · exact ⟨pick step.2, rfl⟩
  obtain ⟨outermost, inside, whole⟩ : ∃ outermost inside,
      elements.reverse ++ [pick selector.subject] = outermost :: inside :=
    List.exists_cons_of_ne_nil (by simp)
  have listed : (outermost.styled :: inside.map Element.styled)[elements.length]? =
      some (pick selector.subject).styled := by
    rw [← List.map_cons, ← whole]
    simp
  obtain ⟨found, outer⟩ := Content.above_nested listed
  rw [← List.map_cons, ← whole, List.map_append, List.map_reverse,
    List.take_left' (by simp), List.reverse_reverse] at outer
  have tree := Content.isTree_outline
    (Content.nested outermost.styled (inside.map Element.styled))
  refine ⟨_, _, elements.length, Content.ofDocument_nest outermost inside, ?_, fun matched => ?_⟩
  · exact (means_iff tree).mpr
      ⟨_, found, good selector.subject List.mem_cons_self, outer.symm ▸ holds⟩
  · have nearest := (meansNearestAround_iff tree).mp ((mem_matchesIn_iff tree).mp matched).2
    rw [outer, ← matchesAround_iff, missed] at nearest
    cases nearest

/-- **The nearest elements are as good as any** on outlines that are trees. -/
theorem Steadfast.meansNearest {selector : Selector} {outline : Outline} {id : Nat}
    (tree : outline.IsTree) (steadfast : selector.Steadfast) (means : selector.Means outline id) :
    selector.MeansNearest outline id := by
  obtain ⟨data, found, satisfied, holds⟩ := (means_iff tree).mp means
  rcases steadfast with ⟨compound, member, void⟩ | free
  · rcases List.mem_cons.mp member with rfl | outer
    · rw [void data] at satisfied
      cases satisfied
    · obtain ⟨step, listed, rfl⟩ := List.mem_map.mp outer
      exact absurd void (not_isVoid_of_holdsAround holds listed)
  · exact ⟨⟨data, found, satisfied⟩,
      (meansNearestAround_iff tree).mpr (holdsNearestAround_of_holdsAround free holds)⟩

/-- **Matching has no false hits, tries only the nearest elements, and decides the meaning of just
the steadfast selectors.** -/
theorem matchesIn_decides_means_iff_steadfast (selector : Selector) :
    (∀ document computed root content,
      (Content.ofDocument document computed root).outcome = .ok content → ∀ id,
        (id ∈ selector.matchesIn content.outline ↔ selector.MeansNearest content.outline id) ∧
        (id ∈ selector.matchesIn content.outline → selector.Means content.outline id)) ∧
    ((∀ document computed root content,
      (Content.ofDocument document computed root).outcome = .ok content → ∀ id,
        (id ∈ selector.matchesIn content.outline ↔ selector.Means content.outline id)) ↔
      selector.Steadfast) := by
  have decided (content : Content) (id : Nat) :
      id ∈ selector.matchesIn content.outline ↔ selector.MeansNearest content.outline id :=
    mem_matchesIn_iff (Content.isTree_outline content)
  refine ⟨fun document computed root content _ id => ⟨decided content id, fun matched =>
    ((decided content id).mp matched).means⟩, ⟨fun decides => ?_, fun steadfast => ?_⟩⟩
  · by_contra not
    obtain ⟨document, content, id, built, means, missed⟩ := exists_missed_of_not_steadfast not
    exact missed ((decides document _ 1 content built id).mpr means)
  · intro document computed root content _ id
    rw [decided]
    exact ⟨MeansNearest.means, steadfast.meansNearest (Content.isTree_outline content)⟩

/-- **A selector of three compounds misses an element**: an `i` in a `b` in another `b` in an `a`
has the number `3` and a `b` around it that is right in an `a`, but the nearest `b` is not. -/
theorem nested_means_not_matched : ∃ selector content,
    parse? "a > b i" = some selector ∧
      (Content.ofDocument (Document.nest [⟨"a", .empty⟩, ⟨"b", .empty⟩, ⟨"b", .empty⟩,
        ⟨"i", .empty⟩]) (some .empty) 1).outcome = .ok content ∧
      selector.Means content.outline 3 ∧ 3 ∉ selector.matchesIn content.outline := by
  refine ⟨⟨[.type "i"], [(.descendant, [.type "b"]), (.child, [.type "a"])]⟩, _, by decide +kernel,
    Content.ofDocument_nest _ _, ?_⟩
  have tree := Content.isTree_outline (Content.nested (Element.styled ⟨"a", .empty⟩)
    ([⟨"b", .empty⟩, ⟨"b", .empty⟩, ⟨"i", .empty⟩].map Element.styled))
  have listed : (Element.styled ⟨"a", .empty⟩ ::
      [⟨"b", .empty⟩, ⟨"b", .empty⟩, ⟨"i", .empty⟩].map Element.styled)[3]? =
        some (Element.styled ⟨"i", .empty⟩) := rfl
  obtain ⟨found, outer⟩ := Content.above_nested listed
  constructor
  · refine (means_iff tree).mpr ⟨_, found, rfl, ?_⟩
    rw [outer]
    exact ⟨[_], _, _, rfl, nofun, rfl, [], _, _, rfl, fun _ => rfl, rfl, trivial⟩
  · intro matched
    have nearest := (meansNearestAround_iff tree).mp ((mem_matchesIn_iff tree).mp matched).2
    rw [outer, ← matchesAround_iff] at nearest
    cases nearest

end PagedHtml.Selector
