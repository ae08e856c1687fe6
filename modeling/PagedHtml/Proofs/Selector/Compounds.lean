/-
**What a compound is read from.**

A condition is written as a tag, or as a class or an identifier behind its mark. The name in it is
written as it is, without escapes, so that only some names can be read back: those of ASCII letters
and digits, hyphens, low lines and characters beyond ASCII (`SimpleSelector.IsSpellable`).
Conditions stand one behind another, and a name goes on as far as it can, so that no tag is read
behind a name (`Selector.IsWhole`).

* `takeName?_eq_some_iff`, `takeSimple?_eq_some_iff`, `takeCompound?_eq_some_iff`: what is taken at
  the front of some characters;
* `exists_isWhole`: whatever the names are divided into, the same is written with whole names.
-/

import Mathlib.Data.List.Chain
import Mathlib.Data.List.TakeWhile
import Mathlib.Data.String.Basic
import PagedHtml.Selector

namespace PagedHtml

/-- **That a name consists of characters of names.** -/
def Selector.IsName (name : String) : Prop :=
  name ≠ "" ∧ ∀ c ∈ name.toList, Selector.isNameChar c = true

instance : DecidablePred Selector.IsName := fun name =>
  decidable_of_iff (name ≠ "" ∧ name.toList.all Selector.isNameChar = true)
    (and_congr_right' List.all_eq_true)

namespace SimpleSelector

/-- A condition as it is written. -/
def text : SimpleSelector → String
  | .type name => name
  | .class name => "." ++ name
  | .id name => "#" ++ name
  | .universal => "*"

/-- That the name in a condition, if there is one, consists of characters of names. -/
def IsSpellable : SimpleSelector → Prop
  | .type name | .class name | .id name => Selector.IsName name
  | .universal => True

instance : DecidablePred IsSpellable
  | .type name | .class name | .id name => inferInstanceAs (Decidable (Selector.IsName name))
  | .universal => inferInstanceAs (Decidable True)

/-- Whether a condition is written with a name at its start. -/
def isTag : SimpleSelector → Bool
  | .type _ => true
  | .class _ | .id _ | .universal => false

/-- Whether a condition is written with a name at its end. -/
def isNamed : SimpleSelector → Bool
  | .type _ | .class _ | .id _ => true
  | .universal => false

/-- A condition whose name, if there is one, goes on. -/
def goOn (more : String) : SimpleSelector → SimpleSelector
  | .type name => .type (name ++ more)
  | .class name => .class (name ++ more)
  | .id name => .id (name ++ more)
  | .universal => .universal

theorem toList_text_class (name : String) :
    (SimpleSelector.class name).text.toList = '.' :: name.toList :=
  String.toList_append

theorem toList_text_id (name : String) :
    (SimpleSelector.id name).text.toList = '#' :: name.toList :=
  String.toList_append

end SimpleSelector

namespace Selector

/-! ### Names -/

variable {chars rest : List Char} {name : String} {compound : Compound} {simple : SimpleSelector}

theorem isGap_eq_false_of_isNameChar {c : Char} (named : isNameChar c = true) :
    isGap c = false := by
  by_contra gap
  simp only [isGap, Text.isSpace, Bool.not_eq_false, Bool.or_eq_true, beq_iff_eq] at gap
  rcases gap with ((((rfl | rfl) | rfl) | rfl) | rfl) | rfl <;> exact absurd named (by decide)

theorem IsName.exists_cons (isName : IsName name) :
    ∃ c rest, name.toList = c :: rest ∧ isNameChar c = true := by
  obtain ⟨c, rest, split⟩ : ∃ c rest, name.toList = c :: rest :=
    List.exists_cons_of_ne_nil (mt String.toList_eq_nil_iff.mp isName.1)
  exact ⟨c, rest, split, isName.2 c (split ▸ List.mem_cons_self)⟩

theorem IsName.append {more : String} (isName : IsName name) (also : IsName more) :
    IsName (name ++ more) := by
  refine ⟨fun empty => isName.1 (String.append_eq_empty_iff.mp empty).1, fun c member => ?_⟩
  rw [String.toList_append, List.mem_append] at member
  exact member.elim (isName.2 c) (also.2 c)

theorem any_head?_dropWhile {α : Type} (p : α → Bool) (list : List α) :
    (list.dropWhile p).head?.any p = false := by
  induction list with
  | nil => rfl
  | cons a rest ih =>
    by_cases holds : p a = true
    · rw [List.dropWhile_cons_of_pos holds, ih]
    · rw [List.dropWhile_cons_of_neg holds]
      simpa using holds

theorem takeWhile_of_any_head? {α : Type} {p : α → Bool} {list : List α}
    (stops : list.head?.any p = false) : list.takeWhile p = [] ∧ list.dropWhile p = list := by
  cases list with
  | nil => exact ⟨rfl, rfl⟩
  | cons a rest =>
    have fails : ¬ p a = true := by simpa using stops
    exact ⟨List.takeWhile_cons_of_neg fails, List.dropWhile_cons_of_neg fails⟩

/-- **The name that is taken stands at the front, and goes on as far as it can.** -/
theorem takeName?_eq_some_iff :
    takeName? chars = some (name, rest) ↔
      IsName name ∧ chars = name.toList ++ rest ∧ rest.head?.any isNameChar = false := by
  constructor
  · intro taken
    rw [takeName?] at taken
    split at taken
    · cases taken
    · next nonempty =>
      cases taken
      rw [IsName, String.toList_ofList, List.takeWhile_append_dropWhile]
      refine ⟨⟨fun empty => nonempty ?_, List.all_eq_true.mp List.all_takeWhile⟩, rfl,
        any_head?_dropWhile isNameChar chars⟩
      rw [String.ofList_eq.mp empty]
      rfl
  · rintro ⟨isName, rfl, stops⟩
    obtain ⟨nothing, all⟩ := takeWhile_of_any_head? stops
    rw [takeName?, List.takeWhile_append_of_pos isName.2, nothing,
      List.dropWhile_append_of_pos isName.2, all, List.append_nil,
      if_neg (by simpa using isName.1), String.ofList_toList]

/-! ### Conditions -/

/-- A condition starts with a character that is no gap, and one of names just if it is a tag. -/
theorem exists_cons_text (spellable : simple.IsSpellable) :
    ∃ c more, simple.text.toList = c :: more ∧ isGap c = false ∧
      isNameChar c = simple.isTag := by
  cases simple with
  | universal => exact ⟨'*', [], rfl, by decide, by decide⟩
  | «class» name =>
    have other : isNameChar '.' = false := by decide
    exact ⟨'.', name.toList, SimpleSelector.toList_text_class name, by decide, other⟩
  | id name =>
    have other : isNameChar '#' = false := by decide
    exact ⟨'#', name.toList, SimpleSelector.toList_text_id name, by decide, other⟩
  | type name =>
    obtain ⟨c, more, split, named⟩ := IsName.exists_cons spellable
    exact ⟨c, more, split, isGap_eq_false_of_isNameChar named, named⟩

theorem any_isNameChar_text (spellable : simple.IsSpellable) (rest : List Char) :
    (simple.text.toList ++ rest).head?.any isNameChar = simple.isTag := by
  obtain ⟨c, more, split, -, same⟩ := exists_cons_text spellable
  rw [split]
  exact same

/-- No gap stands where a condition does. -/
theorem all_isGap_text (spellable : simple.IsSpellable) (rest : List Char) :
    (simple.text.toList ++ rest).head?.all isGap = false := by
  obtain ⟨c, more, split, solid, -⟩ := exists_cons_text spellable
  rw [split]
  exact solid

/-- There are no gaps in a condition. -/
theorem isGap_eq_false_of_mem_text (spellable : simple.IsSpellable) :
    ∀ c ∈ simple.text.toList, isGap c = false := by
  cases simple with
  | universal => decide
  | «class» name =>
    rw [SimpleSelector.toList_text_class]
    exact List.forall_mem_cons.mpr
      ⟨by decide, fun c member => isGap_eq_false_of_isNameChar (spellable.2 c member)⟩
  | id name =>
    rw [SimpleSelector.toList_text_id]
    exact List.forall_mem_cons.mpr
      ⟨by decide, fun c member => isGap_eq_false_of_isNameChar (spellable.2 c member)⟩
  | type name => exact fun c member => isGap_eq_false_of_isNameChar (spellable.2 c member)

/-- Where a name stands, a tag is taken. -/
theorem takeSimple?_of_isNameChar {c : Char} (named : isNameChar c = true) (rest : List Char) :
    takeSimple? (c :: rest) =
      (takeName? (c :: rest)).map fun name => (.type name.1, name.2) := by
  unfold takeSimple?
  split
  · next same => cases same
  · next same =>
    cases same
    exact absurd named (by decide)
  · next same =>
    cases same
    exact absurd named (by decide)
  · next same =>
    cases same
    exact absurd named (by decide)
  · rfl

/-- **The condition that is taken stands at the front**, with its name as long as it can be. -/
theorem takeSimple?_eq_some_iff :
    takeSimple? chars = some (simple, rest) ↔
      simple.IsSpellable ∧ chars = simple.text.toList ++ rest ∧
        (simple.isNamed = true → rest.head?.any isNameChar = false) := by
  constructor
  · have behind {make : String → SimpleSelector} {lead : List Char}
        (taken : ((takeName? lead).map fun name => (make name.1, name.2)) = some (simple, rest)) :
        ∃ name, make name = simple ∧ IsName name ∧ lead = name.toList ++ rest ∧
          rest.head?.any isNameChar = false := by
      obtain ⟨⟨name, after⟩, named, same⟩ := Option.map_eq_some_iff.mp taken
      cases same
      exact ⟨name, rfl, takeName?_eq_some_iff.mp named⟩
    intro taken
    unfold takeSimple? at taken
    split at taken
    · cases taken
    · cases taken
      exact ⟨trivial, rfl, nofun⟩
    · obtain ⟨name, rfl, isName, rfl, stops⟩ := behind taken
      exact ⟨isName, by rw [SimpleSelector.toList_text_class, List.cons_append], fun _ => stops⟩
    · obtain ⟨name, rfl, isName, rfl, stops⟩ := behind taken
      exact ⟨isName, by rw [SimpleSelector.toList_text_id, List.cons_append], fun _ => stops⟩
    · obtain ⟨name, rfl, isName, rfl, stops⟩ := behind taken
      exact ⟨isName, rfl, fun _ => stops⟩
  · rintro ⟨spellable, rfl, stops⟩
    cases simple with
    | universal => rfl
    | type name =>
      obtain ⟨c, more, split, named⟩ := IsName.exists_cons spellable
      have taken := takeName?_eq_some_iff.mpr ⟨spellable, rfl, stops rfl⟩
      rw [split, List.cons_append] at taken
      rw [SimpleSelector.text, split, List.cons_append, takeSimple?_of_isNameChar named, taken]
      rfl
    | «class» name =>
      rw [SimpleSelector.toList_text_class, List.cons_append, takeSimple?,
        takeName?_eq_some_iff.mpr ⟨spellable, rfl, stops rfl⟩]
      rfl
    | id name =>
      rw [SimpleSelector.toList_text_id, List.cons_append, takeSimple?,
        takeName?_eq_some_iff.mpr ⟨spellable, rfl, stops rfl⟩]
      rfl

/-! ### Compounds -/

/-- The characters of conditions, one behind another. -/
def compoundChars (compound : Compound) : List Char :=
  compound.flatMap fun simple => simple.text.toList

/-- **That the names in a compound are whole**: no tag stands right behind a name, where it would be
read as more of the name. -/
def IsWhole (compound : Compound) : Prop :=
  compound.IsChain fun first second => first.isNamed = true → second.isTag = false

@[simp] theorem compoundChars_nil : compoundChars [] = [] := rfl

@[simp] theorem compoundChars_cons (simple : SimpleSelector) (others : Compound) :
    compoundChars (simple :: others) = simple.text.toList ++ compoundChars others :=
  List.flatMap_cons

theorem isWhole_cons_iff {others : Compound} :
    IsWhole (simple :: others) ↔
      (simple.isNamed = true → others.head?.any SimpleSelector.isTag = false) ∧ IsWhole others := by
  rw [IsWhole, List.isChain_cons, IsWhole]
  refine and_congr_left fun _ => ?_
  cases others with
  | nil => simp
  | cons second more => simp

/-- A name stands in front just if the first condition is a tag. -/
theorem any_isNameChar_compoundChars (spellable : ∀ simple ∈ compound, simple.IsSpellable)
    (gap : rest.head?.all isGap = true) :
    (compoundChars compound ++ rest).head?.any isNameChar =
      compound.head?.any SimpleSelector.isTag := by
  cases compound with
  | nil =>
    cases rest with
    | nil => rfl
    | cons c rest =>
      by_contra named
      rw [compoundChars_nil, List.nil_append, List.head?_nil, Option.any_none,
        Bool.not_eq_false] at named
      have solid := isGap_eq_false_of_isNameChar (c := c) named
      rw [List.head?_cons, Option.all_some, solid] at gap
      cases gap
  | cons simple others =>
    rw [compoundChars_cons, List.append_assoc]
    exact any_isNameChar_text (spellable simple List.mem_cons_self) _

/-- **What is taken as a compound** are conditions with whole names, up to a gap or the end. -/
theorem takeCompound?_eq_some_iff :
    takeCompound? chars = some (compound, rest) ↔
      (∀ simple ∈ compound, simple.IsSpellable) ∧ IsWhole compound ∧
        chars = compoundChars compound ++ rest ∧ rest.head?.all isGap = true := by
  constructor
  · intro taken
    fun_induction takeCompound? chars generalizing compound rest with
    | case1 chars gap =>
      cases taken
      exact ⟨List.forall_mem_nil _, .nil, rfl, gap⟩
    | case2 => cases taken
    | case3 chars notGap simple after first bound ih =>
      obtain ⟨⟨others, last⟩, more, same⟩ := Option.map_eq_some_iff.mp taken
      cases same
      obtain ⟨spellable, rfl, stops⟩ := takeSimple?_eq_some_iff.mp first
      obtain ⟨later, whole, rfl, gap⟩ := ih more
      rw [any_isNameChar_compoundChars later gap] at stops
      refine ⟨List.forall_mem_cons.mpr ⟨spellable, later⟩, isWhole_cons_iff.mpr ⟨stops, whole⟩, ?_,
        gap⟩
      rw [compoundChars_cons, List.append_assoc]
  · rintro ⟨spellable, whole, rfl, gap⟩
    induction compound with
    | nil =>
      rw [takeCompound?, if_pos (by simpa using gap)]
      rfl
    | cons simple others ih =>
      obtain ⟨here, later⟩ := List.forall_mem_cons.mp spellable
      obtain ⟨stops, whole⟩ := isWhole_cons_iff.mp whole
      have taken : takeSimple? (simple.text.toList ++ (compoundChars others ++ rest)) =
          some (simple, compoundChars others ++ rest) := by
        refine takeSimple?_eq_some_iff.mpr ⟨here, rfl, ?_⟩
        rwa [any_isNameChar_compoundChars later gap]
      rw [compoundChars_cons, List.append_assoc, takeCompound?,
        if_neg (Bool.eq_false_iff.mp (all_isGap_text here _))]
      split
      · next nothing => cases taken.symm.trans nothing
      · next first after found =>
        cases taken.symm.trans found
        rw [ih later whole]
        rfl

/-- There are no gaps in a compound. -/
theorem isGap_eq_false_of_mem_compoundChars (spellable : ∀ simple ∈ compound, simple.IsSpellable) :
    ∀ c ∈ compoundChars compound, isGap c = false := by
  intro c member
  obtain ⟨simple, listed, inside⟩ := List.mem_flatMap.mp member
  exact isGap_eq_false_of_mem_text (spellable simple listed) c inside

/-! ### Whole names -/

/-- A name that goes on is written as the name and what it goes on with. -/
theorem toList_text_goOn {more : String} (named : simple.isNamed = true) :
    (simple.goOn more).text.toList = simple.text.toList ++ more.toList := by
  cases simple with
  | universal => cases named
  | type name => exact String.toList_append
  | «class» name | id name =>
    simp [SimpleSelector.goOn, SimpleSelector.text, String.toList_append]

theorem isSpellable_goOn {more : String} (spellable : simple.IsSpellable) (also : IsName more) :
    (simple.goOn more).IsSpellable := by
  cases simple with
  | universal => exact trivial
  | type name | «class» name | id name => exact IsName.append spellable also

/-- **Whatever conditions are written as, there are some with whole names that are written alike.**
-/
theorem exists_isWhole (spellable : ∀ simple ∈ compound, simple.IsSpellable) :
    ∃ whole, IsWhole whole ∧ (∀ simple ∈ whole, simple.IsSpellable) ∧
      compoundChars whole = compoundChars compound := by
  induction compound with
  | nil => exact ⟨[], .nil, List.forall_mem_nil _, rfl⟩
  | cons simple others ih =>
    obtain ⟨here, later⟩ := List.forall_mem_cons.mp spellable
    obtain ⟨whole, isWhole, each, same⟩ := ih later
    rw [compoundChars_cons, ← same]
    by_cases apart : simple.isNamed = true → whole.head?.any SimpleSelector.isTag = false
    · exact ⟨simple :: whole, isWhole_cons_iff.mpr ⟨apart, isWhole⟩,
        List.forall_mem_cons.mpr ⟨here, each⟩, compoundChars_cons simple whole⟩
    · -- A tag stands behind a name, which goes on with it.
      obtain ⟨named, tagged⟩ := Classical.not_imp.mp apart
      cases whole with
      | nil => exact absurd rfl tagged
      | cons second more =>
        obtain ⟨also, rest⟩ := List.forall_mem_cons.mp each
        obtain ⟨behind, moreWhole⟩ := isWhole_cons_iff.mp isWhole
        cases second with
        | «class» | id | universal => exact absurd rfl tagged
        | type name =>
          refine ⟨simple.goOn name :: more,
            isWhole_cons_iff.mpr ⟨fun _ => behind rfl, moreWhole⟩,
            List.forall_mem_cons.mpr ⟨isSpellable_goOn here also, rest⟩, ?_⟩
          rw [compoundChars_cons, toList_text_goOn named, compoundChars_cons, List.append_assoc]
          rfl

end Selector

end PagedHtml
