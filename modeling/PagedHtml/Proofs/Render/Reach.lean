/-
**The elements that a rendering comes to.**

A rendering with the standard renderers does not go into elements of which nothing is read. An
element is reached if nothing around it is one of these (`Outline.IsReached`). `Content.reached`
lists the reached elements in the order of the text, each with the elements around it.

* `reached_element`: what is reached in an element, by what is reached in its children;
* `reached_eq`: the list by the numbers of an outline;
* `findSome?_reached_eq_some_iff`: what is found first in the list is found at the smallest number.
-/

import PagedHtml.Proofs.Content.Ancestry
import PagedHtml.Proofs.Render.Reading

namespace PagedHtml

namespace Outline

/-- **That an element is reached**: around it there is no element of which nothing is read. -/
def IsReached (outline : Outline) (id : Nat) : Prop :=
  (outline.element? id).isSome ∧ ∀ outer ∈ outline.above id, outer.tag ∉ Content.silentTags

instance (outline : Outline) (id : Nat) : Decidable (outline.IsReached id) :=
  inferInstanceAs (Decidable (_ ∧ _))

end Outline

namespace Content

/-! ### Reached places -/

/-- The element at a place and the elements around it, if the walk down to it goes through no
element of which nothing is read. -/
def reachedAt? (around : List StyledElement) : Content → List Nat → Option (List StyledElement)
  | text _, _ => none
  | element data _, [] => some (data :: around)
  | element data children, step :: place =>
    if data.tag ∈ silentTags then none
    else children[step]?.bind fun child => child.reachedAt? (data :: around) place

/-- **The elements that are reached**, in the order of the text, each with those around it. -/
def reached (around : List StyledElement) (content : Content) : List (List StyledElement) :=
  content.places.filterMap (content.reachedAt? around)

theorem filterMap_placesFrom {α : Type} {f : List Nat → Option α}
    {g : Content → List Nat → Option α} {siblings : List Content} {start : Nat}
    (same : ∀ step child place, siblings[step]? = some child →
      f ((start + step) :: place) = g child place) :
    (placesFrom start siblings).filterMap f =
      siblings.flatMap fun child => child.places.filterMap (g child) := by
  induction siblings generalizing start with
  | nil => rfl
  | cons first rest ih =>
    have here : f ∘ (start :: ·) = g first := by
      funext place
      exact same 0 first place rfl
    have later := @ih (start + 1) fun step child place taken => by
      rw [Nat.add_assoc, Nat.add_comm 1]
      exact same (step + 1) child place taken
    rw [placesFrom, List.filterMap_append, List.filterMap_map, here, later, List.flatMap_cons]

/-- **What is reached in an element** is the element, and what is reached in its children unless
nothing is read of it. -/
theorem reached_element (around : List StyledElement) (data : StyledElement)
    (children : List Content) :
    (element data children).reached around =
      (data :: around) :: if data.tag ∈ silentTags then []
        else children.flatMap (reached (data :: around)) := by
  have first : (element data children).reachedAt? around [] = some (data :: around) := rfl
  rw [reached, places, List.filterMap_cons_some first]
  congr 1
  split
  · next silent =>
    rw [filterMap_placesFrom (g := fun _ _ => none)]
    · simp
    · intro step child place taken
      exact if_pos silent
  · next speaks =>
    refine filterMap_placesFrom fun step child place taken => ?_
    rw [reachedAt?, if_neg speaks, Nat.zero_add, taken]
    rfl

/-! ### Reached numbers -/

/-- A step further down. -/
theorem reachedAt?_concat {around : List StyledElement} {content child : Content}
    {place : List Nat} {step : Nat} {data : StyledElement} {children : List Content}
    (here : content.at? place = some (element data children))
    (taken : children[step]? = some child) :
    content.reachedAt? around (place ++ [step]) =
      (content.reachedAt? around place).bind fun chain =>
        if data.tag ∈ silentTags then none else child.element?.map (· :: chain) := by
  induction place generalizing content around with
  | nil =>
    cases Option.some.inj ((at?_nil content).symm.trans here)
    show (if data.tag ∈ silentTags then none else children[step]?.bind _) = _
    rw [taken]
    cases child <;> rfl
  | cons next place ih =>
    obtain ⟨lower, found, below⟩ := at?_cons_eq_some.mp here
    cases content with
    | text => cases found
    | element outer siblings =>
      have found : siblings[next]? = some lower := found
      rw [List.cons_append, reachedAt?, reachedAt?, found]
      split
      · rfl
      · exact ih below

/-- An element below another one knows it, and what is above that. -/
theorem above_concat {content : Content} {place : List Nat} {step : Nat}
    {outer data : StyledElement} {siblings children : List Content}
    (here : content.at? place = some (element outer siblings))
    (taken : siblings[step]? = some (element data children)) :
    content.outline.above (content.number (place ++ [step])) =
      outer :: content.outline.above (content.number place) := by
  have below : content.at? (place ++ [step]) = some (element data children) := by
    rw [at?_append here]
    exact at?_cons_eq_some.mpr ⟨_, taken, at?_nil _⟩
  have parent := parent?_outline below
  rw [List.dropLast_concat] at parent
  exact (isTree_outline content).above_of_parent? (by simpa [element?] using parent)
    (element?_outline here)

section

variable {content : Content} {place : List Nat} {data : StyledElement} {children : List Content}

/-- Texts are not reached, for they are no elements. -/
theorem not_isReached_of_text {shown : String} (here : content.at? place = some (text shown)) :
    ¬ content.outline.IsReached (content.number place) := by
  rintro ⟨isElement, -⟩
  rw [element?_outline here] at isElement
  cases isElement

theorem isReached_iff_of_element (here : content.at? place = some (element data children)) :
    content.outline.IsReached (content.number place) ↔
      ∀ outer ∈ content.outline.above (content.number place), outer.tag ∉ silentTags := by
  rw [Outline.IsReached, element?_outline here]
  exact and_iff_right rfl

theorem chain_of_element (here : content.at? place = some (element data children)) :
    content.outline.chain (content.number place) =
      data :: content.outline.above (content.number place) := by
  rw [(isTree_outline content).chain_eq, element?_outline here]
  rfl

/-- **What is reached at a place is the chain of its number**, if that is reached. -/
theorem reachedAt?_eq_some_iff {found : Content} (here : content.at? place = some found)
    {chain : List StyledElement} :
    content.reachedAt? [] place = some chain ↔
      content.outline.IsReached (content.number place) ∧
        content.outline.chain (content.number place) = chain := by
  induction place using List.reverseRecOn generalizing found chain with
  | nil =>
    cases Option.some.inj ((at?_nil content).symm.trans here)
    cases content with
    | text shown => exact ⟨nofun, fun both => absurd both.1 (not_isReached_of_text here)⟩
    | element data children =>
      have alone : (element data children).outline.above
          ((element data children).number []) = [] := by
        have outermost := (isTree_outline (element data children)).root_alone
        rw [(isTree_outline _).above_eq, number_nil, show (0 : Nat) = Outline.root from rfl,
          outermost]
      rw [isReached_iff_of_element here, chain_of_element here, alone]
      simp [reachedAt?]
  | append_singleton place step ih =>
    obtain ⟨upper, hereUpper, below⟩ := at?_of_append here
    obtain ⟨child, taken, same⟩ := at?_cons_eq_some.mp below
    obtain rfl := Option.some.inj ((at?_nil child).symm.trans same)
    cases upper with
    | text => cases taken
    | element outer siblings =>
      rw [reachedAt?_concat hereUpper taken, Option.bind_eq_some_iff]
      simp only [ih hereUpper]
      cases child with
      | text shown =>
        simp [element?, not_isReached_of_text here]
      | element data children =>
        rw [isReached_iff_of_element here, chain_of_element here, above_concat hereUpper taken,
          List.forall_mem_cons, ← isReached_iff_of_element hereUpper,
          ← chain_of_element hereUpper]
        by_cases silent : outer.tag ∈ silentTags
        · simp [silent]
        · simp [silent, element?]

end

theorem mem_elementsAll_of_mem {child : Content} {siblings : List Content}
    (member : child ∈ siblings) {data : StyledElement} (inside : data ∈ child.elements) :
    data ∈ elementsAll siblings := by
  induction siblings with
  | nil => cases member
  | cons first rest ih =>
    rw [elementsAll, List.mem_append]
    rcases List.mem_cons.mp member with rfl | later
    · exact .inl inside
    · exact .inr (ih later)

/-- The element at a place is one of the elements. -/
theorem mem_elements_of_at? {content : Content} {place : List Nat} {data : StyledElement}
    {children : List Content} (here : content.at? place = some (.element data children)) :
    data ∈ content.elements := by
  induction place generalizing content with
  | nil =>
    cases Option.some.inj ((at?_nil content).symm.trans here)
    exact List.mem_cons_self
  | cons step place ih =>
    obtain ⟨child, taken, below⟩ := at?_cons_eq_some.mp here
    cases content with
    | text => cases taken
    | element outer siblings =>
      exact List.mem_cons_of_mem _
        (mem_elementsAll_of_mem (List.mem_of_getElem? taken) (ih below))

/-- What is known of the element with a number is known of the content. -/
theorem mem_elements_of_element? {content : Content} {id : Nat} {data : StyledElement}
    (known : content.outline.element? id = some data) : data ∈ content.elements := by
  have inside := Outline.lt_size_of_element? known
  rw [size_outline] at inside
  obtain ⟨place, found, here, rfl⟩ := exists_place content inside
  rw [element?_outline here] at known
  cases found with
  | text => cases known
  | element data children =>
    cases known
    exact mem_elements_of_at? here

/-- The places have all numbers, in order. -/
theorem map_number_places (content : Content) :
    content.places.map content.number = List.range content.outline.size := by
  apply List.ext_getElem?
  intro position
  rw [List.getElem?_map, size_outline]
  by_cases inside : position < content.size
  · obtain ⟨place, found, here, rfl⟩ := exists_place content inside
    rw [getElem?_places here, List.getElem?_range inside]
    rfl
  · rw [List.getElem?_eq_none (by simpa [length_places] using inside),
      List.getElem?_eq_none (by simpa using inside)]
    rfl

/-- **The reached elements by their numbers**, each with the elements around it. -/
theorem reached_eq (content : Content) :
    content.reached [] = ((List.range content.outline.size).filter content.outline.IsReached).map
      content.outline.chain := by
  have same : ∀ place ∈ content.places, content.reachedAt? [] place =
      if content.outline.IsReached (content.number place) then
        some (content.outline.chain (content.number place)) else none := by
    intro place member
    obtain ⟨found, here⟩ := mem_places.mp member
    split
    · next reached => exact (reachedAt?_eq_some_iff here).mpr ⟨reached, rfl⟩
    · next unreached =>
      rw [Option.eq_none_iff_forall_ne_some]
      exact fun chain isSome => unreached ((reachedAt?_eq_some_iff here).mp isSome).1
  rw [reached, List.filterMap_congr same, ← map_number_places, ← List.filterMap_eq_map,
    List.filterMap_filter, List.filterMap_map]
  refine List.filterMap_congr fun place _ => ?_
  simp

/-! ### The first reached element of a kind -/

/-- What is found first among growing numbers is found at the smallest of them. -/
theorem findSome?_eq_some_iff_of_pairwise {α : Type} {f : Nat → Option α} {value : α}
    {ids : List Nat} (growing : ids.Pairwise (· < ·)) :
    ids.findSome? f = some value ↔
      ∃ id ∈ ids, f id = some value ∧ ∀ earlier ∈ ids, earlier < id → f earlier = none := by
  induction ids with
  | nil => simp
  | cons first rest ih =>
    obtain ⟨above, growing⟩ := List.pairwise_cons.mp growing
    cases here : f first with
    | none =>
      rw [List.findSome?_cons_of_isNone (by rw [here]; rfl), ih growing]
      constructor
      · rintro ⟨id, member, found, unfound⟩
        refine ⟨id, List.mem_cons_of_mem _ member, found, ?_⟩
        exact List.forall_mem_cons.mpr ⟨fun _ => here, unfound⟩
      · rintro ⟨id, member, found, unfound⟩
        rcases List.mem_cons.mp member with rfl | later
        · rw [here] at found
          cases found
        · exact ⟨id, later, found, (List.forall_mem_cons.mp unfound).2⟩
    | some shown =>
      rw [List.findSome?_cons_of_isSome (by rw [here]; rfl), here]
      constructor
      · rintro ⟨⟩
        refine ⟨first, List.mem_cons_self, here, fun earlier member less => ?_⟩
        rcases List.mem_cons.mp member with rfl | later
        · exact absurd less (Nat.lt_irrefl earlier)
        · exact absurd less (Nat.lt_asymm (above earlier later))
      · rintro ⟨id, member, found, unfound⟩
        rcases List.mem_cons.mp member with rfl | later
        · rw [← found, here]
        · have missed := unfound first List.mem_cons_self (above id later)
          rw [here] at missed
          cases missed

theorem lt_size_of_isReached {outline : Outline} {id : Nat} (reached : outline.IsReached id) :
    id < outline.size := by
  obtain ⟨data, found⟩ := Option.isSome_iff_exists.mp reached.1
  exact Outline.lt_size_of_element? found

/-- The reached numbers, which grow. -/
theorem mem_filter_isReached {outline : Outline} {id : Nat} :
    id ∈ (List.range outline.size).filter outline.IsReached ↔ outline.IsReached id := by
  rw [List.mem_filter, List.mem_range, decide_eq_true_eq]
  exact and_iff_right_of_imp lt_size_of_isReached

/-- **What is found first in the reached elements is found at the smallest number.** -/
theorem findSome?_reached_eq_some_iff {α : Type} {f : List StyledElement → Option α}
    {content : Content} {value : α} :
    (content.reached []).findSome? f = some value ↔
      ∃ id, content.outline.IsReached id ∧ f (content.outline.chain id) = some value ∧
        ∀ earlier < id, content.outline.IsReached earlier →
          f (content.outline.chain earlier) = none := by
  have growing := (List.pairwise_lt_range (n := content.outline.size)).filter
    fun id => decide (content.outline.IsReached id)
  rw [reached_eq, List.findSome?_map, findSome?_eq_some_iff_of_pairwise growing]
  simp only [mem_filter_isReached, Function.comp_apply]
  refine exists_congr fun id => and_congr_right fun _ => and_congr_right fun _ => ?_
  exact forall_congr' fun _ => imp.swap

theorem findSome?_reached_eq_none_iff {α : Type} {f : List StyledElement → Option α}
    {content : Content} :
    (content.reached []).findSome? f = none ↔
      ∀ id, content.outline.IsReached id → f (content.outline.chain id) = none := by
  rw [reached_eq, List.findSome?_eq_none_iff, List.forall_mem_map]
  exact forall_congr' fun id => by rw [mem_filter_isReached]

end Content

end PagedHtml
