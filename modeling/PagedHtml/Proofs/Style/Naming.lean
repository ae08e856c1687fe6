/-
**Hyphenated names and the properties that they set.**

A name of words with single hyphens between them (`IsHyphenated`) loses its hyphens on the way to
the form of the output, but each of them leaves a capital behind. So the way back restores the name,
in small letters, and no two such names become the same; and a property, whose name in the output
has letters alone, is set by its name in style sheets and by no other hyphenated name.

* `hyphenate_camelizeFrom`: the way to the form of the output and back, by the words of a name;
* `camelizeFrom_hyphenate`: the way back and forth again, by the letters of a name;
* `camelize_hyphenated`: which property a hyphenated name sets.

The laws of letter case are those of the library, which come with the whole of it only.
-/

import Mathlib
import PagedHtml.Proofs.Style.Declared
import PagedHtml.Proofs.Style.Written

namespace PagedHtml.Style

open Property (hyphenate)

/-- **A name of words with single hyphens between them.** A word is a letter or more, in any letter
case. -/
inductive IsHyphenated : List Char → Prop
  | word {word : List Char} : word ≠ [] → (∀ c ∈ word, c.isAlpha = true) → IsHyphenated word
  | hyphen {word rest : List Char} : word ≠ [] → (∀ c ∈ word, c.isAlpha = true) →
      IsHyphenated rest → IsHyphenated (word ++ '-' :: rest)

/-! ### Letters -/

/-- A letter stays on the way to the form of the output. -/
theorem camelizeFrom_letter {c : Char} (letter : c.isAlpha = true) (raised : Bool)
    (rest : List Char) :
    camelizeFrom raised (c :: rest) =
      (if raised then c.toUpper else c) :: camelizeFrom false rest := by
  rw [camelizeFrom, if_neg fun mark => ?_]
  rw [IsMark.not_isAlpha mark] at letter
  cases letter

/-- A small letter stays on the way back. -/
theorem hyphenate_small {c : Char} (small : c.isUpper = false) (rest : List Char) :
    hyphenate (c :: rest) = c :: hyphenate rest := by
  rw [hyphenate, if_neg (Bool.eq_false_iff.mp small)]

/-- A capital becomes a hyphen and the small letter on the way back. -/
theorem hyphenate_toUpper {c : Char} (letter : c.isAlpha = true) (rest : List Char) :
    hyphenate (c.toUpper :: rest) = '-' :: c.toLower :: hyphenate rest := by
  rw [hyphenate, if_pos (by rw [Char.isUpper_toUpper_eq_isAlpha, letter]),
    Char.toLower_toUpper_eq_toLower]

/-! ### There and back -/

section

variable {word : List Char} {c : Char}

/-- A word of small letters stays, before anything else. -/
theorem hyphenate_camelizeFrom_word (letters : ∀ c ∈ word, c.isAlpha = true)
    (small : ∀ c ∈ word, c.isUpper = false) (rest : List Char) :
    hyphenate (camelizeFrom false (word ++ rest)) =
      word ++ hyphenate (camelizeFrom false rest) := by
  induction word with
  | nil => rfl
  | cons c word ih =>
    obtain ⟨letter, letters⟩ := List.forall_mem_cons.mp letters
    obtain ⟨first, small⟩ := List.forall_mem_cons.mp small
    rw [List.cons_append, camelizeFrom_letter letter, if_neg Bool.false_ne_true,
      hyphenate_small first, ih letters small, List.cons_append]

/-- A hyphen before a small letter is restored. -/
theorem hyphenate_camelizeFrom_hyphen (letter : c.isAlpha = true) (small : c.isUpper = false)
    (rest : List Char) :
    hyphenate (camelizeFrom false ('-' :: c :: rest)) =
      '-' :: hyphenate (camelizeFrom false (c :: rest)) := by
  have same : c.toLower = c := Char.toLower_eq_of_not_isUpper (Bool.eq_false_iff.mp small)
  calc hyphenate (camelizeFrom false ('-' :: c :: rest))
      = hyphenate (camelizeFrom true (c :: rest)) := rfl
    _ = hyphenate (c.toUpper :: camelizeFrom false rest) := by
        rw [camelizeFrom_letter letter, if_pos rfl]
    _ = '-' :: c :: hyphenate (camelizeFrom false rest) := by rw [hyphenate_toUpper letter, same]
    _ = '-' :: hyphenate (camelizeFrom false (c :: rest)) := by
        rw [camelizeFrom_letter letter, if_neg Bool.false_ne_true, hyphenate_small small]

/-- A hyphenated name starts with a letter. -/
theorem IsHyphenated.exists_letter {chars : List Char} (hyphenated : IsHyphenated chars) :
    ∃ c rest, chars = c :: rest ∧ c.isAlpha = true := by
  cases hyphenated with
  | word nonempty letters | hyphen nonempty letters =>
    obtain ⟨c, word, rfl⟩ := List.exists_cons_of_ne_nil nonempty
    exact ⟨c, _, rfl, letters c List.mem_cons_self⟩

/-- **The way back restores a hyphenated name**, if it has no capitals of its own. -/
theorem hyphenate_camelizeFrom {chars : List Char} (hyphenated : IsHyphenated chars)
    (small : ∀ c ∈ chars, c.isUpper = false) : hyphenate (camelizeFrom false chars) = chars := by
  induction hyphenated with
  | word nonempty letters =>
    have alone := hyphenate_camelizeFrom_word letters small []
    rw [List.append_nil] at alone
    rw [alone]
    exact List.append_nil _
  | hyphen nonempty letters hyphenated ih =>
    rw [List.forall_mem_append, List.forall_mem_cons] at small
    obtain ⟨front, -, behind⟩ := small
    -- The hyphen raises a letter, as no word is empty: a capital stands for it on the way back.
    obtain ⟨c, rest, rfl, letter⟩ := hyphenated.exists_letter
    rw [hyphenate_camelizeFrom_word letters front,
      hyphenate_camelizeFrom_hyphen letter (behind c List.mem_cons_self), ih behind]

/-- **The way to the form of the output restores a name of letters alone.** -/
theorem camelizeFrom_hyphenate {chars : List Char} (letters : ∀ c ∈ chars, c.isAlpha = true) :
    camelizeFrom false (hyphenate chars) = chars := by
  induction chars with
  | nil => rfl
  | cons c rest ih =>
    obtain ⟨letter, letters⟩ := List.forall_mem_cons.mp letters
    cases capital : c.isUpper with
    | true =>
      have same : c.toLower.toUpper = c := by
        rw [Char.toUpper_toLower_eq_toUpper,
          Char.toUpper_eq_of_not_isLower (Char.not_isLower_of_isUpper capital)]
      rw [hyphenate, if_pos capital]
      calc camelizeFrom false ('-' :: c.toLower :: hyphenate rest)
          = camelizeFrom true (c.toLower :: hyphenate rest) := rfl
        _ = c.toLower.toUpper :: camelizeFrom false (hyphenate rest) := by
            rw [camelizeFrom_letter (by rw [Char.isAlpha_toLower_eq_isAlpha, letter]), if_pos rfl]
        _ = c :: rest := by rw [same, ih letters]
    | false =>
      rw [hyphenate_small capital, camelizeFrom_letter letter, if_neg Bool.false_ne_true,
        ih letters]

end

/-! ### Properties and their names in style sheets -/

/-- A hyphenated name is one in small letters. -/
theorem IsHyphenated.map_toLower {chars : List Char} (hyphenated : IsHyphenated chars) :
    IsHyphenated (chars.map Char.toLower) := by
  have small {word : List Char} (letters : ∀ c ∈ word, c.isAlpha = true) :
      ∀ c ∈ word.map Char.toLower, c.isAlpha = true := by
    rw [List.forall_mem_map]
    intro c member
    rw [Char.isAlpha_toLower_eq_isAlpha, letters c member]
  induction hyphenated with
  | word nonempty letters => exact .word (mt List.map_eq_nil_iff.mp nonempty) (small letters)
  | hyphen nonempty letters hyphenated ih =>
    rw [List.map_append, List.map_cons]
    exact .hyphen (mt List.map_eq_nil_iff.mp nonempty) (small letters) ih

theorem hyphenate_camelize {name : String} (hyphenated : IsHyphenated name.toList) :
    String.ofList (hyphenate (camelize (Text.lower name)).toList) = Text.lower name := by
  rw [camelize, String.toList_ofList, Text.lower, String.toList_ofList,
    hyphenate_camelizeFrom hyphenated.map_toLower]
  rw [List.forall_mem_map]
  exact fun c _ => Char.isUpper_toLower_eq_false c

/-- **Hyphenated names that become the same are the same**, letter case aside. -/
theorem camelize_injective {first second : String} (hyphenated : IsHyphenated first.toList)
    (also : IsHyphenated second.toList)
    (same : camelize (Text.lower first) = camelize (Text.lower second)) :
    Text.lower first = Text.lower second := by
  rw [← hyphenate_camelize hyphenated, same, hyphenate_camelize also]

/-- The name of a property has letters alone. -/
theorem isAlpha_of_mem_name {property : Property} {c : Char}
    (member : c ∈ property.name.toList) : c.isAlpha = true := by
  have camel := property.isCamelCase_name
  rw [isCamelCase] at camel
  split at camel
  · cases camel
  · next first others chars =>
    rw [Bool.and_eq_true, List.all_eq_true] at camel
    obtain ⟨small, letters⟩ := camel
    rw [chars] at member
    rcases List.mem_cons.mp member with rfl | later
    · rw [Char.isAlpha, small, Bool.or_true]
    · exact letters c later

/-- **A property is found by its name in style sheets.** -/
theorem camelize_cssName (property : Property) : camelize property.cssName = property.name := by
  rw [camelize, Property.cssName, String.toList_ofList,
    camelizeFrom_hyphenate fun _ => isAlpha_of_mem_name, String.ofList_toList]

/-- **Which property a hyphenated name sets**, in any letter case: the one that style sheets know
by this name in small letters. The name in style sheets is restored from the form of the output, for
a property or not, so no two hyphenated names meet in one property. -/
theorem camelize_hyphenated {name : String} (hyphenated : IsHyphenated name.toList) :
    (∀ property : Property,
        Property.ofName? (camelize (Text.lower name)) = some property ↔
          Text.lower name = property.cssName) ∧
      String.ofList (hyphenate (camelize (Text.lower name)).toList) = Text.lower name ∧
      ∀ other : String, IsHyphenated other.toList → Text.lower other ≠ Text.lower name →
        camelize (Text.lower other) ≠ camelize (Text.lower name) ∧
          ∀ property : Property, Property.ofName? (camelize (Text.lower name)) = some property →
            Property.ofName? (camelize (Text.lower other)) ≠ some property := by
  have back := hyphenate_camelize hyphenated
  refine ⟨fun property => ?_, back, fun other also different => ?_⟩
  · rw [Property.ofName?_eq_some_iff]
    constructor
    · intro named
      rw [← back, ← named, Property.cssName]
    · intro known
      rw [known, camelize_cssName]
  · have apart : camelize (Text.lower other) ≠ camelize (Text.lower name) :=
      fun same => different (camelize_injective also hyphenated same)
    refine ⟨apart, fun property found same => apart ?_⟩
    rw [← Property.ofName?_eq_some_iff.mp found, ← Property.ofName?_eq_some_iff.mp same]

theorem camelize_hyphenated_capitals :
    IsHyphenated "Border-TOP-Color".toList ∧ IsHyphenated "border-topcolor".toList ∧
      Property.ofName? (camelize (Text.lower "Border-TOP-Color")) = some .borderTopColor ∧
      Property.ofName? (camelize (Text.lower "border-topcolor")) ≠ some .borderTopColor := by
  have hyphenated : IsHyphenated "Border-TOP-Color".toList := by
    show IsHyphenated ("Border".toList ++ '-' :: ("TOP".toList ++ '-' :: "Color".toList))
    exact .hyphen (by decide) (List.all_eq_true.mp rfl)
      (.hyphen (by decide) (List.all_eq_true.mp rfl) (.word (by decide) (List.all_eq_true.mp rfl)))
  have also : IsHyphenated "border-topcolor".toList := by
    show IsHyphenated ("border".toList ++ '-' :: "topcolor".toList)
    exact .hyphen (by decide) (List.all_eq_true.mp rfl)
      (.word (by decide) (List.all_eq_true.mp rfl))
  obtain ⟨sets, -, apart⟩ := camelize_hyphenated hyphenated
  have found := (sets .borderTopColor).mpr (by decide +kernel)
  exact ⟨hyphenated, also, found, (apart "border-topcolor" also (by decide +kernel)).2 _ found⟩

end PagedHtml.Style
