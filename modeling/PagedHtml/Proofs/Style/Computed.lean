/-
**Which translated values stay as they are.**

What the output gets for a computed value is a color call with its arguments set in order, or a word
(`IsSettled`). Translating such a value again gives it back, with one exception: a value of several
words of which the first is `none` is cut down to that word, and the word alone is no value at all.

* `kept_of_ofComputed`, `Kept.isSettled`: what is translated has one of these forms;
* `ofComputed_of_isSettled`: each of them other than `none` is its own translation;
* `ofComputed_again_iff`: a translation is translated to itself just if it does not come from a
  value that starts with the word `none`.
-/

import Mathlib.Data.List.Infix
import Mathlib.Data.List.TakeWhile
import PagedHtml.Proofs.Text.LetterCase
import PagedHtml.Proofs.Text.Pieces
import PagedHtml.Style.Computed

namespace PagedHtml.Style

open Text (isBlank trimChars IsTrimmed)

/-! ### Characters of words -/

theorem isBlank_of_isWordChar {c : Char} (word : isWordChar c = true) : isBlank c = false := by
  simp only [isWordChar, Bool.or_eq_true, beq_iff_eq] at word
  rcases word with ((((letter | rfl) | rfl) | rfl) | rfl) | rfl
  · exact Text.isBlank_of_isAlphanum letter
  all_goals rfl

/-- What consists of characters of words has no blank at its ends. -/
theorem isTrimmed_of_isWordChar {word : List Char} (each : ∀ c ∈ word, isWordChar c = true) :
    IsTrimmed word :=
  Text.isTrimmed_of_visible fun c member => isBlank_of_isWordChar (each c member)

theorem openingParen_notMem {word : List Char} (each : ∀ c ∈ word, isWordChar c = true) :
    '(' ∉ word := by
  intro member
  cases each '(' member

/-- The name of a color call is a word. -/
theorem isWordChar_of_isColorName {name : List Char} (color : isColorName name = true) :
    ∀ c ∈ name, isWordChar c = true := by
  intro c member
  have lowered : c.toLower ∈ "rgba".toList := by
    have listed := List.mem_map_of_mem (f := Char.toLower) member
    simp only [isColorName, Bool.or_eq_true, beq_iff_eq] at color
    rcases color with same | same
    · rw [same] at listed
      exact List.mem_of_mem_dropLast (l := "rgba".toList) listed
    · rw [same] at listed
      exact listed
  have letters : ∀ d ∈ "rgba".toList, d.isAlphanum = true := List.all_eq_true.mp rfl
  rw [isWordChar, Text.isAlphanum_of_toLower (letters _ lowered)]
  rfl

/-! ### Arguments set in order -/

/-- A space behind each separator can be put in front of each part but the first. -/
theorem intercalate_space (first : List Char) (others : List (List Char)) :
    [',', ' '].intercalate (first :: others) =
      [','].intercalate (first :: others.map (' ' :: ·)) := by
  induction others generalizing first with
  | nil => rfl
  | cons next others ih =>
    rw [List.map_cons, List.intercalate_cons_cons, List.intercalate_cons_cons, ih,
      List.append_assoc, List.append_assoc]
    cases others <;> rfl

/-- **Arguments that are set in order stay as they are.** -/
theorem spacedArguments_spacedArguments (arguments : List Char) :
    spacedArguments (spacedArguments arguments) = spacedArguments arguments := by
  have only : ∀ c, (c == ',') = true ↔ c = ',' := fun c => beq_iff_eq
  obtain ⟨nonempty, without, -⟩ := (Text.pieces_eq_iff only).mp (Eq.refl (Text.pieces _ arguments))
  have trimmed : ∀ part ∈ (Text.pieces (· == ',') arguments).map trimChars,
      ',' ∉ part ∧ trimChars part = part := by
    intro part listed
    obtain ⟨piece, member, rfl⟩ := List.mem_map.mp listed
    exact ⟨fun comma => without piece member (Text.mem_of_mem_trimChars comma),
      Text.trimChars_of_isTrimmed (Text.isTrimmed_trimChars piece)⟩
  have some_part : (Text.pieces (· == ',') arguments).map trimChars ≠ [] := by
    rwa [Ne, List.map_eq_nil_iff]
  have set : spacedArguments arguments =
      [',', ' '].intercalate ((Text.pieces (· == ',') arguments).map trimChars) := rfl
  rw [set]
  generalize (Text.pieces (· == ',') arguments).map trimChars = parts at trimmed some_part
  cases parts with
  | nil => exact absurd rfl some_part
  | cons first others =>
    obtain ⟨here, later⟩ := List.forall_mem_cons.mp trimmed
    have divided : Text.pieces (· == ',') ([',', ' '].intercalate (first :: others)) =
        first :: others.map (' ' :: ·) := by
      refine (Text.pieces_eq_iff only).mpr ⟨List.cons_ne_nil _ _, ?_, (intercalate_space _ _).symm⟩
      refine List.forall_mem_cons.mpr ⟨here.1, fun spaced listed => ?_⟩
      obtain ⟨part, member, rfl⟩ := List.mem_map.mp listed
      simpa using (later part member).1
    have unspaced : (others.map (' ' :: ·)).map trimChars = others := by
      rw [List.map_map]
      refine (List.map_congr_left fun part member => ?_).trans (List.map_id others)
      exact (Text.trimChars_cons_of_isBlank rfl part).trans (later part member).2
    rw [spacedArguments, divided, List.map_cons, here.2, unspaced]

theorem closingParen_notMem_spacedArguments {arguments : List Char} (without : ')' ∉ arguments) :
    ')' ∉ spacedArguments arguments := by
  intro member
  rcases Text.mem_of_mem_intercalate member with separator | ⟨part, listed, inside⟩
  · revert separator
    decide
  · obtain ⟨piece, divided, rfl⟩ := List.mem_map.mp listed
    exact without (Text.mem_of_mem_pieces divided (Text.mem_of_mem_trimChars inside))

/-! ### Settled values -/

/-- **The values of the output**: color calls with their arguments set in order, and words. Two
properties do not take every word. -/
inductive IsSettled (property : Property) : List Char → Prop
  | color {name arguments : List Char} :
      property ≠ .lineHeight → isColorName name = true → ')' ∉ arguments →
      IsSettled property (name ++ '(' :: (spacedArguments arguments ++ [')']))
  | word {word : List Char} :
      word ≠ [] → (∀ c ∈ word, isWordChar c = true) →
      (property = .lineHeight → word = ['1']) → (property = .flexGrow → word ≠ ['0']) →
      IsSettled property word

section

variable {property : Property} {target : Target} {raw value : String} {chars : List Char}

/-- **A color call is found** by its name and its parentheses, the first of each. -/
theorem leadingColor?_eq_some_iff {color : List Char} :
    leadingColor? chars = some color ↔
      ∃ name arguments further, chars = name ++ '(' :: (arguments ++ ')' :: further) ∧
        isColorName name = true ∧ ')' ∉ arguments ∧
        color = name ++ '(' :: (spacedArguments arguments ++ [')']) := by
  constructor
  · intro leads
    rw [leadingColor?] at leads
    split at leads
    · cases leads
    · next name rest opened =>
      split at leads
      · next isColor =>
        obtain ⟨⟨arguments, further⟩, closed, rfl⟩ := Option.map_eq_some_iff.mp leads
        obtain ⟨opening, isOpening, split⟩ := Text.divideAt?_eq_some opened
        obtain ⟨closing, isClosing, rfl⟩ := Text.divideAt?_eq_some closed
        obtain rfl := eq_of_beq isOpening
        obtain rfl := eq_of_beq isClosing
        exact ⟨name, arguments, further, split, isColor, Text.notMem_of_divideAt? closed, rfl⟩
      · cases leads
  · rintro ⟨name, arguments, further, rfl, isColor, without, rfl⟩
    have opened := Text.divideAt?_append (openingParen_notMem (isWordChar_of_isColorName isColor))
      (arguments ++ ')' :: further)
    rw [leadingColor?, opened]
    simp only [isColor, if_true, Text.divideAt?_append without, Option.map_some]

theorem leadingColor?_of_word (each : ∀ c ∈ chars, isWordChar c = true) :
    leadingColor? chars = none := by
  have undivided : Text.divideAt? (· == '(') chars = none := by
    refine Text.divideAt?_eq_none fun c member => ?_
    rw [beq_eq_false_iff_ne]
    rintro rfl
    exact openingParen_notMem each member
  rw [leadingColor?, undivided]

/-- A color call with its arguments set in order leads to itself. -/
theorem leadingColor?_spaced {name arguments : List Char} (isColor : isColorName name = true)
    (without : ')' ∉ arguments) :
    leadingColor? (name ++ '(' :: (spacedArguments arguments ++ [')'])) =
      some (name ++ '(' :: (spacedArguments arguments ++ [')'])) :=
  leadingColor?_eq_some_iff.mpr ⟨name, spacedArguments arguments, [], rfl, isColor,
    closingParen_notMem_spacedArguments without, by rw [spacedArguments_spacedArguments]⟩

theorem leadingWord_of_word (each : ∀ c ∈ chars, isWordChar c = true) :
    leadingWord chars = chars :=
  List.takeWhile_eq_self_iff.mpr each

theorem isWordChar_of_mem_leadingWord : ∀ c ∈ leadingWord chars, isWordChar c = true :=
  fun _ member => List.mem_takeWhile_imp member

/-! ### What is kept of a value -/

/-- **What is kept of a value** without blanks at its ends, one way for each property and form. -/
inductive Kept (property : Property) (chars : List Char) : List Char → Prop
  | height : property = .lineHeight → Kept property chars ['1']
  | color {color : List Char} : property ≠ .lineHeight → leadingColor? chars = some color →
      Kept property chars color
  | family : property = .fontFamily → leadingColor? chars = none → leadingWord chars = [] →
      Kept property chars fallbackFontFamily.toList
  | grow : property = .flexGrow → leadingColor? chars = none → leadingWord chars = ['0'] →
      Kept property chars ['1']
  | word : property ≠ .lineHeight → leadingColor? chars = none → leadingWord chars ≠ [] →
      (property = .flexGrow → leadingWord chars ≠ ['0']) → Kept property chars (leadingWord chars)

/-- A translation is what is kept of the value, and its property means something for the target. -/
theorem kept_of_ofComputed (translated : ofComputed property target raw = .ok (some value)) :
    appliesTo property target = true ∧ Kept property (trimChars raw.toList) value.toList := by
  rw [ofComputed] at translated
  simp only at translated
  split at translated
  · cases translated
  · next kept =>
    rw [not_or, Bool.not_eq_true', Bool.not_eq_false] at kept
    refine ⟨kept.2, ?_⟩
    split at translated
    · next isHeight =>
      cases translated
      exact .height isHeight
    · next notHeight =>
      split at translated
      · next color leads =>
        cases translated
        rw [String.toList_ofList]
        exact .color notHeight leads
      · next colorless =>
        split at translated
        · next wordless =>
          split at translated
          · next isFamily =>
            cases translated
            exact .family isFamily colorless (List.isEmpty_iff.mp wordless)
          · cases translated
        · next some_word =>
          split at translated
          · next zero =>
            cases translated
            exact .grow zero.1 colorless zero.2
          · next positive =>
            cases translated
            rw [String.toList_ofList]
            refine .word notHeight colorless (by simpa using some_word) ?_
            exact fun isGrow isZero => positive ⟨isGrow, isZero⟩

/-- A value is dropped just if it is the word `none` or its property means nothing for the target.
-/
theorem ofComputed_eq_none_iff :
    ofComputed property target raw = .ok none ↔
      trimChars raw.toList = "none".toList ∨ appliesTo property target = false := by
  rw [ofComputed]
  simp only [Bool.not_eq_true']
  split
  · next dropped => exact ⟨fun _ => dropped, fun _ => rfl⟩
  · next kept =>
    refine ⟨fun translated => ?_, fun dropped => absurd dropped kept⟩
    split at translated
    · cases translated
    · split at translated
      · cases translated
      · split_ifs at translated <;> cases translated

/-- **A value is refused just if there is no word to keep**, unless it sets a line height or a font
family, or is dropped. -/
theorem ofComputed_eq_error_iff {failure : InvalidValue} :
    ofComputed property target raw = .error failure ↔
      failure = ⟨property, raw⟩ ∧ trimChars raw.toList ≠ "none".toList ∧
        appliesTo property target = true ∧ property ≠ .lineHeight ∧ property ≠ .fontFamily ∧
        leadingColor? (trimChars raw.toList) = none ∧ leadingWord (trimChars raw.toList) = [] := by
  rw [ofComputed]
  simp only [Bool.not_eq_true', List.isEmpty_iff]
  by_cases dropped : trimChars raw.toList = "none".toList ∨ appliesTo property target = false
  · rw [if_pos dropped]
    refine iff_of_false nofun fun ⟨_, notNone, applies, _⟩ => ?_
    rcases dropped with isNone | not
    · exact notNone isNone
    · exact absurd applies (by simp [not])
  · rw [if_neg dropped]
    obtain ⟨notNone, applies⟩ := not_or.mp dropped
    rw [Bool.not_eq_false] at applies
    by_cases isHeight : property = .lineHeight
    · simp [isHeight]
    · rw [if_neg isHeight]
      cases leadingColor? (trimChars raw.toList) with
      | some color => simp
      | none =>
        by_cases wordless : leadingWord (trimChars raw.toList) = []
        · by_cases isFamily : property = .fontFamily
          · simp [wordless, isFamily]
          · simp only [wordless, isFamily, if_true, if_false, Except.error.injEq]
            exact ⟨fun same => ⟨same.symm, notNone, applies, isHeight, isFamily, trivial, trivial⟩,
              fun refused => refused.1.symm⟩
        · simp only [wordless, if_false]
          split <;> simp

/-- **What is kept is settled.** -/
theorem Kept.isSettled {kept : List Char} (keeps : Kept property chars kept) :
    IsSettled property kept := by
  cases keeps with
  | height isHeight =>
    exact .word nofun (List.all_eq_true.mp rfl) (fun _ => rfl) fun _ => nofun
  | color notHeight leads =>
    obtain ⟨name, arguments, -, -, isColor, without, rfl⟩ := leadingColor?_eq_some_iff.mp leads
    exact .color notHeight isColor without
  | family isFamily _ _ =>
    refine .word nofun (List.all_eq_true.mp rfl) (fun isHeight => ?_) fun _ => nofun
    rw [isFamily] at isHeight
    cases isHeight
  | grow => exact .word nofun (List.all_eq_true.mp rfl) (fun _ => rfl) fun _ => nofun
  | word notHeight _ some_word positive =>
    exact .word some_word isWordChar_of_mem_leadingWord
      (fun isHeight => absurd isHeight notHeight) positive

theorem IsSettled.isTrimmed (settled : IsSettled property chars) : IsTrimmed chars := by
  cases settled with
  | @color name arguments _ isColor _ =>
    have word := isTrimmed_of_isWordChar (isWordChar_of_isColorName isColor)
    constructor
    · cases name with
      | nil => cases isColor
      | cons first name => exact word.1
    · intro c last
      rw [← List.singleton_append, ← List.append_assoc, ← List.append_assoc,
        List.getLast?_concat] at last
      cases last
      rfl
  | word _ each _ _ => exact isTrimmed_of_isWordChar each

/-- **A settled value other than `none` is its own translation.** -/
theorem ofComputed_of_isSettled (applies : appliesTo property target = true)
    (settled : IsSettled property value.toList) (other : value ≠ "none") :
    ofComputed property target value = .ok (some value) := by
  have kept : ¬ (value.toList = "none".toList ∨ (!appliesTo property target) = true) := by
    rw [String.toList_inj, applies]
    simpa using other
  rw [ofComputed, Text.trimChars_of_isTrimmed settled.isTrimmed]
  simp only [if_neg kept]
  have back : String.ofList value.toList = value := String.ofList_toList
  generalize value.toList = chars at settled back
  subst back
  cases settled with
  | color notHeight isColor without =>
    rw [if_neg notHeight, leadingColor?_spaced isColor without]
  | word some_word each height grow =>
    by_cases isHeight : property = .lineHeight
    · rw [if_pos isHeight, height isHeight]
    · have positive : ¬ (property = .flexGrow ∧ chars = ['0']) := fun zero => grow zero.1 zero.2
      rw [if_neg isHeight, leadingColor?_of_word each, leadingWord_of_word each]
      simp only [List.isEmpty_iff, if_neg some_word, if_neg positive]

/-! ### Translating again -/

/-- That a property is to keep the word `none` of a value of several words. -/
def KeepsNone (property : Property) (raw : String) : Prop :=
  property ≠ .lineHeight ∧ leadingWord (trimChars raw.toList) = "none".toList

/-- No color call starts with the word `none`. -/
theorem leadingColor?_of_leadingWord_none (first : leadingWord chars = "none".toList) :
    leadingColor? chars = none := by
  cases leads : leadingColor? chars with
  | none => rfl
  | some color =>
    obtain ⟨name, arguments, further, rfl, isColor, -, -⟩ := leadingColor?_eq_some_iff.mp leads
    rw [leadingWord, List.takeWhile_append_of_pos (isWordChar_of_isColorName isColor)] at first
    cases name with
    | nil => cases isColor
    | cons c name =>
      obtain ⟨rfl, -⟩ := List.cons.inj first
      cases isColor

/-- A translation is the word `none` just if it is what is kept of several words. -/
theorem Kept.eq_none_iff {kept : List Char} (keeps : Kept property chars kept) :
    kept = "none".toList ↔ property ≠ .lineHeight ∧ leadingWord chars = "none".toList := by
  cases keeps with
  | height isHeight => exact ⟨nofun, fun keepsNone => absurd isHeight keepsNone.1⟩
  | color notHeight leads =>
    constructor
    · rintro rfl
      obtain ⟨name, arguments, -, -, -, -, same⟩ := leadingColor?_eq_some_iff.mp leads
      have opening : '(' ∈ "none".toList := by
        rw [same]
        exact List.mem_append_right _ List.mem_cons_self
      exact absurd opening (by decide)
    · rintro ⟨-, first⟩
      rw [leadingColor?_of_leadingWord_none first] at leads
      cases leads
  | family _ _ wordless =>
    rw [wordless]
    exact ⟨nofun, fun keepsNone => nomatch keepsNone.2⟩
  | grow _ _ zero =>
    rw [zero]
    exact ⟨nofun, fun keepsNone => nomatch keepsNone.2⟩
  | word notHeight => exact ⟨fun same => ⟨notHeight, same⟩, And.right⟩

/-- **A translation is its own translation** just if it is not the word `none` kept of a value of
several words, of which nothing is left when it is translated again. -/
theorem ofComputed_again_iff (translated : ofComputed property target raw = .ok (some value)) :
    (ofComputed property target value = .ok (some value) ↔ ¬ KeepsNone property raw) ∧
      (KeepsNone property raw → value = "none" ∧ ofComputed property target value = .ok none) := by
  obtain ⟨applies, keeps⟩ := kept_of_ofComputed translated
  have keepsNone : value = "none" ↔ KeepsNone property raw := by
    rw [← String.toList_inj]
    exact keeps.eq_none_iff
  have dropped : ofComputed property target "none" = .ok none := by
    rw [ofComputed]
    exact if_pos (.inl rfl)
  rw [← keepsNone]
  refine ⟨⟨?_, ofComputed_of_isSettled applies keeps.isSettled⟩, ?_⟩
  · rintro again rfl
    rw [dropped] at again
    cases again
  · rintro rfl
    exact ⟨rfl, dropped⟩

/-- A color call with another word behind it. -/
theorem ofComputed_again_color :
    ofComputed .color .element "rgba(1,2,3) solid" = .ok (some "rgba(1, 2, 3)") ∧
      ofComputed .color .element "rgba(1, 2, 3)" = .ok (some "rgba(1, 2, 3)") := by
  have translated : ofComputed .color .element "rgba(1,2,3) solid" =
      .ok (some "rgba(1, 2, 3)") := by decide +kernel
  have keeps : ¬ KeepsNone .color "rgba(1,2,3) solid" := by
    rintro ⟨-, first⟩
    revert first
    decide +kernel
  exact ⟨translated, (ofComputed_again_iff translated).1.mpr keeps⟩

/-- **The word `none` is kept of two words and dropped when it stands alone.** -/
theorem ofComputed_none_first :
    ofComputed .textDecoration .element "none solid" = .ok (some "none") ∧
      ofComputed .textDecoration .element "none" = .ok none ∧
      ¬ ∀ property target raw value, ofComputed property target raw = .ok (some value) →
        ofComputed property target value = .ok (some value) := by
  have first : ofComputed .textDecoration .element "none solid" = .ok (some "none") := by
    decide +kernel
  have alone : ofComputed .textDecoration .element "none" = .ok none := by decide +kernel
  refine ⟨first, alone, fun again => ?_⟩
  have kept := again _ _ _ _ first
  rw [alone] at kept
  cases kept

end

end PagedHtml.Style
