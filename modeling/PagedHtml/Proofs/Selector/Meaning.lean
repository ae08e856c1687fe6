/-
**What a selector means, and what matching decides.**

A selector means that an element satisfies its subject and that for each further compound, going
outwards, there is an element that satisfies it: the element right around the one before for a child
combinator, any element around it for a descendant combinator (`Selector.Means`). Matching decides
the same with the nearest element that would do for each combinator (`Selector.MeansNearest`).

* `mem_matchesIn_iff`: matching decides `MeansNearest`;
* `MeansNearest.means`: what matches has the meaning of the selector;
* `means_iff`, `meansNearestAround_iff`: both in terms of the chain of elements around an element.
-/

import PagedHtml.Proofs.Content.Ancestry
import PagedHtml.Selector

namespace PagedHtml

/-- How an element lies in one around it. -/
def Combinator.Relates (outline : Outline) : Combinator → (inner outer : Nat) → Prop
  | child => outline.IsAround
  | descendant => Relation.TransGen outline.IsAround

namespace Selector

/-! ### Meaning on an outline -/

/-- That there is an element with a number, and that it satisfies a compound. -/
def SatisfiedAt (outline : Outline) (compound : Compound) (id : Nat) : Prop :=
  ∃ data, outline.element? id = some data ∧ satisfiesAll compound data = true

/-- That each compound has an element around the one before. -/
def MeansAround (outline : Outline) : List (Combinator × Compound) → (inner : Nat) → Prop
  | [], _ => True
  | (combinator, compound) :: more, inner =>
    ∃ outer, combinator.Relates outline inner outer ∧ SatisfiedAt outline compound outer ∧
      MeansAround outline more outer

/-- **The meaning of a selector.** -/
def Means (selector : Selector) (outline : Outline) (id : Nat) : Prop :=
  SatisfiedAt outline selector.subject id ∧ MeansAround outline selector.around id

/-- That each compound has an element around the one before, where only the nearest element that
would do is tried. -/
def MeansNearestAround (outline : Outline) : List (Combinator × Compound) → (inner : Nat) → Prop
  | [], _ => True
  | (combinator, compound) :: more, inner =>
    ∃ outer, combinator.Relates outline inner outer ∧ SatisfiedAt outline compound outer ∧
      (∀ other, combinator.Relates outline inner other → SatisfiedAt outline compound other →
        Relation.ReflTransGen outline.IsAround outer other) ∧
      MeansNearestAround outline more outer

/-- The meaning of a selector to the nearest elements that would do. -/
def MeansNearest (selector : Selector) (outline : Outline) (id : Nat) : Prop :=
  SatisfiedAt outline selector.subject id ∧ MeansNearestAround outline selector.around id

theorem MeansNearestAround.meansAround {outline : Outline}
    {around : List (Combinator × Compound)} {inner : Nat}
    (nearest : MeansNearestAround outline around inner) : MeansAround outline around inner := by
  induction around generalizing inner with
  | nil => trivial
  | cons step more ih =>
    obtain ⟨outer, related, satisfied, -, further⟩ := nearest
    exact ⟨outer, related, satisfied, ih further⟩

/-- **What matches has the meaning of the selector.** -/
theorem MeansNearest.means {selector : Selector} {outline : Outline} {id : Nat}
    (nearest : selector.MeansNearest outline id) : selector.Means outline id :=
  ⟨nearest.1, nearest.2.meansAround⟩

/-! ### Meaning on a chain -/

/-- That the elements of a chain, the innermost first, satisfy compounds one after another. -/
def HoldsAround : List (Combinator × Compound) → List StyledElement → Prop
  | [], _ => True
  | (combinator, compound) :: more, chain =>
    ∃ nearer element outer, chain = nearer ++ element :: outer ∧
      (combinator = .child → nearer = []) ∧ satisfiesAll compound element = true ∧
      HoldsAround more outer

/-- That they do so where only the nearest element that would do is tried. -/
def HoldsNearestAround : List (Combinator × Compound) → List StyledElement → Prop
  | [], _ => True
  | (combinator, compound) :: more, chain =>
    ∃ nearer element outer, chain = nearer ++ element :: outer ∧
      (combinator = .child → nearer = []) ∧ satisfiesAll compound element = true ∧
      (∀ skipped ∈ nearer, satisfiesAll compound skipped = false) ∧ HoldsNearestAround more outer

theorem dropWhile_eq_cons {α : Type} {p : α → Bool} {list rest : List α} {a : α}
    (dropped : list.dropWhile p = a :: rest) :
    ∃ before, list = before ++ a :: rest ∧ (∀ b ∈ before, p b = true) ∧ p a = false := by
  refine ⟨list.takeWhile p, ?_, fun b taken => ?_, ?_⟩
  · rw [← dropped, List.takeWhile_append_dropWhile]
  · exact List.all_eq_true.mp List.all_takeWhile b taken
  · have first := List.head?_dropWhile_not p list
    rw [dropped] at first
    simpa using first

theorem dropWhile_append_of_all {α : Type} {p : α → Bool} {before rest : List α} {a : α}
    (all : ∀ b ∈ before, p b = true) (stop : p a = false) :
    (before ++ a :: rest).dropWhile p = a :: rest := by
  rw [List.dropWhile_append_of_pos all, List.dropWhile_cons_of_neg (by simp [stop])]

/-- **Matching tries only the nearest element that would do.** -/
theorem matchesAround_iff (around : List (Combinator × Compound)) (chain : List StyledElement) :
    matchesAround around chain = true ↔ HoldsNearestAround around chain := by
  induction around generalizing chain with
  | nil => simp [matchesAround, HoldsNearestAround]
  | cons step more ih =>
    obtain ⟨combinator, compound⟩ := step
    cases combinator with
    | child =>
      cases chain with
      | nil => simp [matchesAround, HoldsNearestAround]
      | cons first outer =>
        rw [matchesAround, HoldsNearestAround, Bool.and_eq_true, ih]
        constructor
        · rintro ⟨satisfied, further⟩
          exact ⟨[], first, outer, rfl, fun _ => rfl, satisfied, by simp, further⟩
        · rintro ⟨nearer, element, rest, split, direct, satisfied, -, further⟩
          obtain rfl := direct rfl
          obtain ⟨rfl, rfl⟩ := List.cons.inj split
          exact ⟨satisfied, further⟩
    | descendant =>
      rw [matchesAround, HoldsNearestAround]
      constructor
      · intro accepted
        split at accepted
        · cases accepted
        · next element outer dropped =>
          obtain ⟨nearer, split, skip, stop⟩ := dropWhile_eq_cons dropped
          refine ⟨nearer, element, outer, split, by simp, by simpa using stop,
            fun skipped member => by simpa using skip skipped member, (ih outer).mp accepted⟩
      · rintro ⟨nearer, element, outer, rfl, -, satisfied, skip, further⟩
        rw [dropWhile_append_of_all (fun skipped member => by simp [skip skipped member])
          (by simp [satisfied])]
        exact (ih outer).mpr further

/-! ### From an outline to its chains -/

section

variable {outline : Outline} {around : List (Combinator × Compound)} {id : Nat}

/-- The elements to which a combinator relates are those of the chain, the next one for a child
combinator and any for a descendant combinator. -/
theorem exists_relates_iff (tree : outline.IsTree) {combinator : Combinator}
    {data : StyledElement} {further : List StyledElement} :
    (∃ nearer, outline.above id = nearer ++ data :: further ∧
        (combinator = .child → nearer = [])) ↔
      ∃ outer, combinator.Relates outline id outer ∧ outline.element? outer = some data ∧
        further = outline.above outer := by
  cases combinator with
  | descendant =>
    simp only [reduceCtorEq, false_imp_iff, and_true]
    exact tree.exists_above_iff
  | child =>
    constructor
    · rintro ⟨nearer, split, direct⟩
      obtain rfl := direct rfl
      rw [tree.above_eq] at split
      cases known : outline.parent? id with
      | none =>
        rw [known] at split
        cases split
      | some parent =>
        rw [← tree.above_eq] at split
        obtain ⟨first, found⟩ := tree.exists_element?_parent known
        rw [tree.above_of_parent? known found] at split
        obtain ⟨rfl, rfl⟩ := List.cons.inj split
        exact ⟨parent, known, found, rfl⟩
    · rintro ⟨outer, known, found, rfl⟩
      exact ⟨[], tree.above_of_parent? known found, fun _ => rfl⟩

/-- **The meaning of compounds is decided by the elements above.** -/
theorem meansAround_iff (tree : outline.IsTree) :
    MeansAround outline around id ↔ HoldsAround around (outline.above id) := by
  induction around generalizing id with
  | nil => exact Iff.rfl
  | cons step more ih =>
    obtain ⟨combinator, compound⟩ := step
    constructor
    · rintro ⟨outer, related, ⟨data, found, satisfied⟩, further⟩
      obtain ⟨nearer, split, direct⟩ :=
        (exists_relates_iff tree).mpr ⟨outer, related, found, rfl⟩
      exact ⟨nearer, data, _, split, direct, satisfied, ih.mp further⟩
    · rintro ⟨nearer, data, rest, split, direct, satisfied, further⟩
      obtain ⟨outer, related, found, rfl⟩ :=
        (exists_relates_iff tree).mp ⟨nearer, split, direct⟩
      exact ⟨outer, related, ⟨data, found, satisfied⟩, ih.mpr further⟩

theorem transGen_of_relates {combinator : Combinator} {inner outer : Nat}
    (related : combinator.Relates outline inner outer) :
    Relation.TransGen outline.IsAround inner outer := by
  cases combinator with
  | child => exact Relation.TransGen.single related
  | descendant => exact related

theorem length_above_lt (tree : outline.IsTree) {inner outer : Nat}
    (walk : Relation.TransGen outline.IsAround inner outer) :
    (outline.above outer).length < (outline.above inner).length := by
  induction walk using Relation.TransGen.head_induction_on with
  | single known =>
    obtain ⟨data, found⟩ := tree.exists_element?_parent known
    rw [tree.above_of_parent? known found]
    exact Nat.lt_succ_self _
  | head known _ ih =>
    obtain ⟨data, found⟩ := tree.exists_element?_parent known
    rw [tree.above_of_parent? known found]
    exact Nat.lt_succ_of_lt ih

/-- The nearest element that would do is the one before which no element of the chain would. -/
theorem nearest_iff (tree : outline.IsTree) {combinator : Combinator} {compound : Compound}
    {outer : Nat} {data : StyledElement} {nearer : List StyledElement}
    (related : combinator.Relates outline id outer) (found : outline.element? outer = some data)
    (split : outline.above id = nearer ++ data :: outline.above outer)
    (direct : combinator = .child → nearer = []) :
    (∀ other, combinator.Relates outline id other → SatisfiedAt outline compound other →
        Relation.ReflTransGen outline.IsAround outer other) ↔
      ∀ skipped ∈ nearer, satisfiesAll compound skipped = false := by
  constructor
  · -- An element before the nearest one that would do has a longer chain above it.
    intro least skipped member
    by_contra satisfied
    rw [Bool.not_eq_false] at satisfied
    obtain ⟨first, second, rfl⟩ := List.append_of_mem member
    have descendant : combinator = .descendant := by
      cases combinator with
      | child =>
        exact absurd (direct rfl)
          (List.append_ne_nil_of_right_ne_nil _ (List.cons_ne_nil skipped second))
      | descendant => rfl
    obtain ⟨other, walk, reaching, longer⟩ :=
      tree.exists_above_iff.mp ⟨first, split.trans (List.append_assoc _ _ _)⟩
    have reached := least other (descendant ▸ walk) ⟨skipped, reaching, satisfied⟩
    have lengths : _ = (second ++ data :: outline.above outer).length + 0 :=
      congrArg List.length longer.symm
    rw [List.length_append, List.length_cons] at lengths
    rcases Relation.reflTransGen_iff_eq_or_transGen.mp reached with rfl | further
    · omega
    · have shorter := length_above_lt tree further
      omega
  · -- Of two elements around a third one, one is around the other.
    rintro skip other relatedOther ⟨element, reaching, satisfied⟩
    have functional : Relator.RightUnique outline.IsAround := fun inner first second one two =>
      Option.some.inj (one.symm.trans two)
    rcases Relation.ReflTransGen.total_of_right_unique functional
        (transGen_of_relates related).to_reflTransGen
        (transGen_of_relates relatedOther).to_reflTransGen with outward | inward
    · exact outward
    · rcases Relation.reflTransGen_iff_eq_or_transGen.mp inward with rfl | strictly
      · exact Relation.ReflTransGen.refl
      · obtain ⟨before, inner⟩ := tree.exists_above_iff.mpr
          ⟨other, transGen_of_relates relatedOther, reaching, rfl⟩
        obtain ⟨between, outer⟩ := tree.exists_above_iff.mpr ⟨_, strictly, found, rfl⟩
        rw [split, outer, ← List.cons_append, ← List.append_assoc] at inner
        have member : element ∈ nearer := by
          rw [List.append_cancel_right inner]
          exact List.mem_append_right _ List.mem_cons_self
        rw [skip element member] at satisfied
        cases satisfied

/-- **The nearest elements are decided by the elements above too.** -/
theorem meansNearestAround_iff (tree : outline.IsTree) :
    MeansNearestAround outline around id ↔ HoldsNearestAround around (outline.above id) := by
  induction around generalizing id with
  | nil => exact Iff.rfl
  | cons step more ih =>
    obtain ⟨combinator, compound⟩ := step
    constructor
    · rintro ⟨outer, related, ⟨data, found, satisfied⟩, least, further⟩
      obtain ⟨nearer, split, direct⟩ :=
        (exists_relates_iff tree).mpr ⟨outer, related, found, rfl⟩
      exact ⟨nearer, data, _, split, direct, satisfied,
        (nearest_iff tree related found split direct).mp least, ih.mp further⟩
    · rintro ⟨nearer, data, rest, split, direct, satisfied, skip, further⟩
      obtain ⟨outer, related, found, rfl⟩ :=
        (exists_relates_iff tree).mp ⟨nearer, split, direct⟩
      exact ⟨outer, related, ⟨data, found, satisfied⟩,
        (nearest_iff tree related found split direct).mpr skip, ih.mpr further⟩

/-- The meaning of a selector on the chain of an element. -/
theorem means_iff (tree : outline.IsTree) {selector : Selector} :
    selector.Means outline id ↔
      ∃ data, outline.element? id = some data ∧ satisfiesAll selector.subject data = true ∧
        HoldsAround selector.around (outline.above id) := by
  rw [Means, meansAround_iff tree, SatisfiedAt]
  constructor
  · rintro ⟨⟨data, found, satisfied⟩, further⟩
    exact ⟨data, found, satisfied, further⟩
  · rintro ⟨data, found, satisfied, further⟩
    exact ⟨⟨data, found, satisfied⟩, further⟩

/-- **Matching decides the meaning to the nearest elements.** -/
theorem mem_matchesIn_iff (tree : outline.IsTree) {selector : Selector} :
    id ∈ selector.matchesIn outline ↔ selector.MeansNearest outline id := by
  rw [matchesIn, List.mem_filter, List.mem_range, tree.chain_eq, MeansNearest,
    meansNearestAround_iff tree, SatisfiedAt]
  cases found : outline.element? id with
  | none => simp [matchesChain]
  | some data =>
    have inside : id < outline.size := Outline.lt_size_of_element? found
    simp only [matchesChain, Bool.and_eq_true, matchesAround_iff, inside, true_and,
      Option.some.injEq, exists_eq_left']

end

end Selector

end PagedHtml
