/-
**Places in a content, and their numbers in the order of the text.**

A place is the way from the outermost content down to a text or element: at each step, which child
to take. `Content.places` lists the places in pre-order, a place before those below it and siblings
in order.

* `getElem?_places`: the place numbered `number place` in that order is `place`, where `number`
  counts what stands before a place from the sizes alone;
* `nodup_places`: no place is listed twice;
* `entries_eq_map_places`: the entries of an outline are those of the places, listed in pre-order,
  each with the numbers that its children and the element around it have there.
-/

import PagedHtml.Content.Outline
import Mathlib.Data.List.Nodup

namespace PagedHtml.Content

/-! ### Places -/

/-- What stands at a place. -/
def at? : Content → List Nat → Option Content
  | content, [] => some content
  | content, step :: place => content.children[step]?.bind fun child => child.at? place

mutual

/-- The places in a content, in pre-order. -/
def places : Content → List (List Nat)
  | text _ => [[]]
  | element _ children => [] :: placesFrom 0 children

/-- The places in siblings, the first of which is reached by the given step. -/
def placesFrom (step : Nat) : List Content → List (List Nat)
  | [] => []
  | first :: rest => first.places.map (step :: ·) ++ placesFrom (step + 1) rest

end

/-- How many texts and elements stand before the one at a place. -/
def number : Content → List Nat → Nat
  | _, [] => 0
  | content, step :: place =>
    1 + sizeAll (content.children.take step) +
      (content.children[step]?.map fun child => child.number place).getD 0

@[simp] theorem at?_nil (content : Content) : content.at? [] = some content := by
  cases content <;> rfl

@[simp] theorem number_nil (content : Content) : content.number [] = 0 := by
  cases content <;> rfl

theorem at?_cons (content : Content) (step : Nat) (place : List Nat) :
    content.at? (step :: place) = content.children[step]?.bind fun child => child.at? place := by
  cases content <;> rfl

theorem number_cons {content child : Content} {step : Nat}
    (taken : content.children[step]? = some child) (place : List Nat) :
    content.number (step :: place) =
      1 + sizeAll (content.children.take step) + child.number place := by
  rw [number, taken]
  rfl

/-- A place that is not the outermost is in a child. -/
theorem at?_cons_eq_some {content found : Content} {step : Nat} {place : List Nat} :
    content.at? (step :: place) = some found ↔
      ∃ child, content.children[step]? = some child ∧ child.at? place = some found := by
  rw [at?_cons, Option.bind_eq_some_iff]

/-- To go down twice is to go down along both ways. -/
theorem at?_append {content found : Content} {place : List Nat}
    (here : content.at? place = some found) (further : List Nat) :
    content.at? (place ++ further) = found.at? further := by
  induction place generalizing content with
  | nil =>
    cases Option.some.inj ((at?_nil content).symm.trans here)
    rfl
  | cons step place ih =>
    obtain ⟨child, taken, below⟩ := at?_cons_eq_some.mp here
    rw [List.cons_append, at?_cons, taken]
    exact ih below

/-- What stands above something stands somewhere. -/
theorem at?_of_append {content found : Content} {place further : List Nat}
    (here : content.at? (place ++ further) = some found) :
    ∃ above, content.at? place = some above ∧ above.at? further = some found := by
  induction place generalizing content with
  | nil => exact ⟨content, at?_nil content, here⟩
  | cons step place ih =>
    obtain ⟨child, taken, below⟩ := at?_cons_eq_some.mp here
    obtain ⟨above, reached, rest⟩ := ih below
    exact ⟨above, at?_cons_eq_some.mpr ⟨child, taken, reached⟩, rest⟩

/-! ### Sizes -/

theorem size_eq (content : Content) : content.size = sizeAll content.children + 1 := by
  cases content <;> rfl

theorem sizeAll_take_add {siblings : List Content} {step : Nat} {child : Content}
    (taken : siblings[step]? = some child) :
    sizeAll (siblings.take (step + 1)) = sizeAll (siblings.take step) + child.size := by
  induction siblings generalizing step with
  | nil => simp at taken
  | cons first rest ih =>
    cases step with
    | zero =>
      cases Option.some.inj taken
      simp [sizeAll]
    | succ step =>
      have rest_taken : rest[step]? = some child := by simpa using taken
      have := ih rest_taken
      simp only [List.take_succ_cons, sizeAll]
      omega

theorem sizeAll_take_le (siblings : List Content) (step : Nat) :
    sizeAll (siblings.take step) ≤ sizeAll siblings := by
  induction siblings generalizing step with
  | nil => simp
  | cons first rest ih =>
    cases step with
    | zero => simp [sizeAll]
    | succ step =>
      have := ih step
      simp only [List.take_succ_cons, sizeAll]
      omega

/-- Every position among siblings lies in exactly one of them. -/
theorem exists_child_of_lt {siblings : List Content} {position : Nat}
    (inside : position < sizeAll siblings) :
    ∃ step child offset, siblings[step]? = some child ∧ offset < child.size ∧
      position = sizeAll (siblings.take step) + offset := by
  induction siblings generalizing position with
  | nil => simp [sizeAll] at inside
  | cons first rest ih =>
    by_cases here : position < first.size
    · exact ⟨0, first, position, rfl, here, by simp [sizeAll]⟩
    · have beyond : position - first.size < sizeAll rest := by
        simp only [sizeAll] at inside
        omega
      obtain ⟨step, child, offset, taken, within, equal⟩ := ih beyond
      refine ⟨step + 1, child, offset, by simpa using taken, within, ?_⟩
      simp only [List.take_succ_cons, sizeAll]
      omega

/-! ### Numbers -/

/-- What stands at a place ends before the content does. -/
theorem number_add_size_le {content found : Content} {place : List Nat}
    (here : content.at? place = some found) :
    content.number place + found.size ≤ content.size := by
  induction place generalizing content with
  | nil =>
    cases Option.some.inj ((at?_nil content).symm.trans here)
    simp
  | cons step place ih =>
    obtain ⟨child, taken, below⟩ := at?_cons_eq_some.mp here
    have inner := ih below
    have upTo := sizeAll_take_le content.children (step + 1)
    rw [sizeAll_take_add taken] at upTo
    rw [number_cons taken, size_eq content]
    omega

theorem size_pos (content : Content) : 0 < content.size := by
  rw [size_eq]
  omega

theorem number_lt_size {content found : Content} {place : List Nat}
    (here : content.at? place = some found) : content.number place < content.size := by
  have bound := number_add_size_le here
  have positive := size_pos found
  omega

/-- Numbers add up along the way down. -/
theorem number_append {content found : Content} {place : List Nat}
    (here : content.at? place = some found) (further : List Nat) :
    content.number (place ++ further) = content.number place + found.number further := by
  induction place generalizing content with
  | nil =>
    cases Option.some.inj ((at?_nil content).symm.trans here)
    simp
  | cons step place ih =>
    obtain ⟨child, taken, below⟩ := at?_cons_eq_some.mp here
    rw [List.cons_append, number_cons taken, number_cons taken, ih below]
    omega

/-- **Every number is that of a place.** -/
theorem exists_place (content : Content) {position : Nat} (inside : position < content.size) :
    ∃ place found, content.at? place = some found ∧ content.number place = position := by
  cases position with
  | zero => exact ⟨[], content, at?_nil content, number_nil content⟩
  | succ position =>
    have below : position < sizeAll content.children := by
      rw [size_eq] at inside
      omega
    obtain ⟨step, child, offset, taken, within, equal⟩ := exists_child_of_lt below
    have smaller : child.size < content.size := by
      have upTo := sizeAll_take_le content.children (step + 1)
      rw [sizeAll_take_add taken] at upTo
      rw [size_eq content]
      omega
    obtain ⟨place, found, here, numbered⟩ := exists_place child within
    refine ⟨step :: place, found, at?_cons_eq_some.mpr ⟨child, taken, here⟩, ?_⟩
    rw [number_cons taken, numbered, equal]
    omega
termination_by content.size

/-! ### The list of places -/

theorem length_placesFrom {siblings : List Content}
    (each : ∀ child ∈ siblings, child.places.length = child.size) (step : Nat) :
    (placesFrom step siblings).length = sizeAll siblings := by
  induction siblings generalizing step with
  | nil => rfl
  | cons first rest ih =>
    obtain ⟨here, later⟩ := List.forall_mem_cons.mp each
    rw [placesFrom, List.length_append, List.length_map, here, ih later, sizeAll]

theorem length_places (content : Content) : content.places.length = content.size := by
  cases content with
  | text => rfl
  | element data children =>
    have inside : (placesFrom 0 children).length = sizeAll children :=
      length_placesFrom (fun child _ => length_places child) 0
    rw [places, List.length_cons, inside, size]

theorem getElem?_placesFrom {siblings : List Content} {step offset : Nat} {child : Content}
    (taken : siblings[step]? = some child) (within : offset < child.size) (start : Nat) :
    (placesFrom start siblings)[sizeAll (siblings.take step) + offset]? =
      child.places[offset]?.map ((start + step) :: ·) := by
  induction siblings generalizing step start with
  | nil => simp at taken
  | cons first rest ih =>
    cases step with
    | zero =>
      cases Option.some.inj taken
      rw [placesFrom, List.getElem?_append_left (by simpa [sizeAll, length_places] using within)]
      simp [sizeAll]
    | succ step =>
      have rest_taken : rest[step]? = some child := by simpa using taken
      have moved := ih rest_taken (start + 1)
      rw [placesFrom, List.take_succ_cons, sizeAll, Nat.add_assoc,
        List.getElem?_append_right (by simp [length_places]), List.length_map, length_places,
        Nat.add_sub_cancel_left, moved, Nat.add_right_comm, Nat.add_assoc]

theorem places_eq (content : Content) : content.places = [] :: placesFrom 0 content.children := by
  cases content <;> rfl

/-- **A place is listed at its number.** -/
theorem getElem?_places {content found : Content} {place : List Nat}
    (here : content.at? place = some found) :
    content.places[content.number place]? = some place := by
  induction place generalizing content with
  | nil => simp [places_eq]
  | cons step place ih =>
    obtain ⟨child, taken, below⟩ := at?_cons_eq_some.mp here
    rw [places_eq, number_cons taken, Nat.add_assoc, Nat.add_comm 1, List.getElem?_cons_succ,
      getElem?_placesFrom taken (number_lt_size below), ih below]
    simp

/-- What is listed at a position is the place with that number. -/
theorem getElem?_places_eq_some {content : Content} {position : Nat} {place : List Nat} :
    content.places[position]? = some place ↔
      content.number place = position ∧ ∃ found, content.at? place = some found := by
  constructor
  · intro listed
    have inside := (List.getElem?_eq_some_iff.mp listed).1
    rw [length_places] at inside
    obtain ⟨other, found, here, rfl⟩ := exists_place content inside
    rw [getElem?_places here] at listed
    cases Option.some.inj listed
    exact ⟨rfl, found, here⟩
  · rintro ⟨rfl, found, here⟩
    exact getElem?_places here

/-- The places listed are those at which something stands. -/
theorem mem_places {content : Content} {place : List Nat} :
    place ∈ content.places ↔ ∃ found, content.at? place = some found := by
  rw [List.mem_iff_getElem?]
  constructor
  · rintro ⟨position, listed⟩
    exact (getElem?_places_eq_some.mp listed).2
  · rintro ⟨found, here⟩
    exact ⟨_, getElem?_places here⟩

/-- **No place is listed twice.** -/
theorem nodup_places (content : Content) : content.places.Nodup := by
  rw [List.nodup_iff_injective_getElem]
  intro first second same
  have at_first := getElem?_places_eq_some.mp (List.getElem?_eq_getElem first.2)
  have at_second := getElem?_places_eq_some.mp (List.getElem?_eq_getElem second.2)
  simp only at same
  rw [same] at at_first
  exact Fin.ext (at_first.1.symm.trans at_second.1)

theorem number_injective {content first second : Content} {place other : List Nat}
    (here : content.at? place = some first) (there : content.at? other = some second)
    (same : content.number place = content.number other) : place = other := by
  have listed := getElem?_places here
  rw [same, getElem?_places there] at listed
  exact (Option.some.inj listed).symm

/-- The number of a place is its position in the list of places. -/
theorem idxOf_places {content found : Content} {place : List Nat}
    (here : content.at? place = some found) :
    content.places.idxOf place = content.number place := by
  obtain ⟨inside, equal⟩ := List.getElem?_eq_some_iff.mp (getElem?_places here)
  conv_lhs => rw [← equal]
  exact (nodup_places content).idxOf_getElem _ inside

/-! ### The entries of an outline -/

/-- What the entry at a place has to be: the data of what stands there, the position of the place
above in the list of places, and those of the places right below. -/
def entryAt? (content : Content) (place : List Nat) : Option Outline.Entry :=
  (content.at? place).map fun found =>
    match found with
    | text shown => .text shown
    | element data children =>
      .element data (if place = [] then none else some (content.places.idxOf place.dropLast))
        ((List.range children.length).map fun step => content.places.idxOf (place ++ [step]))

/-- The first entry of a content that has a number and stands in an element. -/
def head (parent : Option Nat) (id : Nat) : Content → Outline.Entry
  | text shown => .text shown
  | element data children => .element data parent (siblingIds (id + 1) children)

theorem entries_eq (parent : Option Nat) (id : Nat) (content : Content) :
    content.entries parent id =
      content.head parent id :: entriesAll (some id) (id + 1) content.children := by
  cases content <;> rfl

theorem getElem?_entriesAll {siblings : List Content} {step offset : Nat} {child : Content}
    (taken : siblings[step]? = some child) (within : offset < child.size)
    (parent : Option Nat) (id : Nat) :
    (entriesAll parent id siblings)[sizeAll (siblings.take step) + offset]? =
      (child.entries parent (id + sizeAll (siblings.take step)))[offset]? := by
  induction siblings generalizing step id with
  | nil => simp at taken
  | cons first rest ih =>
    cases step with
    | zero =>
      cases Option.some.inj taken
      rw [entriesAll, List.getElem?_append_left (by simpa [sizeAll, length_entries] using within)]
      simp [sizeAll]
    | succ step =>
      have rest_taken : rest[step]? = some child := by simpa using taken
      have moved := ih rest_taken (id + first.size)
      rw [entriesAll, List.take_succ_cons, sizeAll, Nat.add_assoc,
        List.getElem?_append_right (by simp [length_entries]), length_entries,
        Nat.add_sub_cancel_left, moved, Nat.add_assoc]

/-- **The entry with the number of a place is the first entry of what stands there.** -/
theorem getElem?_entries {content found : Content} {place : List Nat}
    (here : content.at? place = some found) (parent : Option Nat) (id : Nat) :
    (content.entries parent id)[content.number place]? =
      some (found.head (if place = [] then parent else some (id + content.number place.dropLast))
        (id + content.number place)) := by
  induction place generalizing content parent id with
  | nil =>
    cases Option.some.inj ((at?_nil content).symm.trans here)
    simp [entries_eq]
  | cons step place ih =>
    obtain ⟨child, taken, below⟩ := at?_cons_eq_some.mp here
    have inner := ih below (some id) (id + 1 + sizeAll (content.children.take step))
    rw [entries_eq, number_cons taken, Nat.add_assoc, Nat.add_comm 1, List.getElem?_cons_succ,
      getElem?_entriesAll taken (number_lt_size below), inner]
    have shift (more : Nat) :
        id + 1 + sizeAll (content.children.take step) + more =
          id + (sizeAll (content.children.take step) + more + 1) := by omega
    cases place with
    | nil => simpa using congrArg (fun first => some (found.head (some id) first)) (shift 0)
    | cons next place =>
      rw [List.dropLast_cons_of_ne_nil (List.cons_ne_nil next place), number_cons taken]
      simp only [List.cons_ne_nil, if_false, shift, Nat.add_comm 1, Nat.add_right_comm]

theorem getElem?_siblingIds (id : Nat) (siblings : List Content) (step : Nat) :
    (siblingIds id siblings)[step]? =
      (siblings[step]?).map fun _ => id + sizeAll (siblings.take step) := by
  induction siblings generalizing id step with
  | nil => simp [siblingIds]
  | cons first rest ih =>
    cases step with
    | zero => simp [siblingIds, sizeAll]
    | succ step => simp [siblingIds, sizeAll, ih, Nat.add_assoc]

/-- The numbers of the children of an element are those of the places right below it. -/
theorem siblingIds_eq {content : Content} {place : List Nat} {data : StyledElement}
    {children : List Content} (here : content.at? place = some (element data children)) :
    siblingIds (content.number place + 1) children =
      (List.range children.length).map fun step => content.places.idxOf (place ++ [step]) := by
  apply List.ext_getElem?
  intro step
  rw [getElem?_siblingIds, List.getElem?_map]
  by_cases taken : step < children.length
  · have listed : children[step]? = some children[step] := List.getElem?_eq_getElem taken
    have child : (element data children).at? [step] = some children[step] :=
      at?_cons_eq_some.mpr ⟨children[step], listed, at?_nil _⟩
    have first : (element data children).number [step] = 1 + sizeAll (children.take step) :=
      number_cons listed []
    rw [listed, List.getElem?_range taken, Option.map_some, Option.map_some,
      idxOf_places ((at?_append here [step]).trans child), number_append here, first, Nat.add_assoc]
  · simp [taken]

/-- The place above is found in the list of places. -/
theorem idxOf_dropLast {content found : Content} {place : List Nat}
    (here : content.at? place = some found) :
    content.places.idxOf place.dropLast = content.number place.dropLast := by
  by_cases outermost : place = []
  · subst outermost
    exact idxOf_places here
  · have split : place.dropLast ++ [place.getLast outermost] = place :=
      List.dropLast_append_getLast outermost
    obtain ⟨above, reached, -⟩ := at?_of_append (split.symm ▸ here)
    exact idxOf_places reached

/-- **An outline lists the entries of the places in pre-order.** -/
theorem entries_eq_map_places (content : Content) :
    content.outline.entries.toList.map some = content.places.map content.entryAt? := by
  apply List.ext_getElem?
  intro position
  rw [List.getElem?_map, List.getElem?_map]
  by_cases inside : position < content.size
  · obtain ⟨place, found, here, rfl⟩ := exists_place content inside
    have listed : content.outline.entries.toList[content.number place]? = _ :=
      getElem?_entries here none 0
    rw [listed, getElem?_places here, Option.map_some, Option.map_some, entryAt?, here,
      Option.map_some, Nat.zero_add, Nat.zero_add]
    cases found with
    | text shown => rfl
    | element data children =>
      show some (some (Outline.Entry.element _ _ _)) = _
      rw [idxOf_dropLast here, siblingIds_eq here]
  · have outside : content.places[position]? = none := by
      rw [List.getElem?_eq_none_iff, length_places]
      omega
    have beyond : content.outline.entries.toList[position]? = none := by
      rw [List.getElem?_eq_none_iff]
      simpa [outline, length_entries] using inside
    rw [outside, beyond]
    rfl

end PagedHtml.Content
