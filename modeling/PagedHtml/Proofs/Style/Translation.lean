/-
**The grammar of translated values.**

A computed value is dropped, refused, or translated to a value of the output: a word, or a color
call with its arguments in order (`IsOutput`). Of a color call only its name and its arguments
count: neither the blanks around the arguments nor what stands behind the closing parenthesis
changes the translation.

* `isSome_leadingColor?_iff`, `leadingWord_eq_nil_iff`: which values have a color or a word to keep;
* `IsSettled.isOutput`: what is kept of a value has one of the two forms;
* `leadingColor?_colorValue`: the color of a value is that of its arguments without blanks;
* `ofComputed_grammar`: all of this for the translation.
-/

import PagedHtml.Proofs.Style.Computed

namespace PagedHtml.Style

open Text (dropWhileEnd isBlank trimChars IsTrimmed)

/-! ### What is kept of a value -/

/-- Whether characters start with a color call: its name in any letter case, an opening parenthesis,
and a closing one anywhere behind it. -/
def StartsWithColor (chars : List Char) : Prop :=
  ∃ name behind, chars = name ++ '(' :: behind ∧ isColorName name = true ∧ ')' ∈ behind

/-- An argument as it stands in a color call in order. -/
structure IsArgument (argument : List Char) : Prop where
  isTrimmed : IsTrimmed argument
  comma_notMem : ',' ∉ argument
  closing_notMem : ')' ∉ argument

/-- **The two forms of a value of the output**: a word, or a color call with a comma and a space
between its arguments. -/
inductive IsOutput : List Char → Prop
  | word {word : List Char} : word ≠ [] → (∀ c ∈ word, isWordChar c = true) → IsOutput word
  | color {name : List Char} {arguments : List (List Char)} : isColorName name = true →
      arguments ≠ [] → (∀ argument ∈ arguments, IsArgument argument) →
      IsOutput (name ++ '(' :: ([',', ' '].intercalate arguments ++ [')']))

section

variable {property : Property} {target : Target} {raw : String} {chars : List Char}

/-- **A value has a color to keep just if it starts with a color call.** -/
theorem isSome_leadingColor?_iff : (leadingColor? chars).isSome = true ↔ StartsWithColor chars := by
  rw [Option.isSome_iff_exists]
  constructor
  · rintro ⟨color, leads⟩
    obtain ⟨name, arguments, further, rfl, isColor, -, -⟩ := leadingColor?_eq_some_iff.mp leads
    exact ⟨name, _, rfl, isColor, List.mem_append_right _ List.mem_cons_self⟩
  · rintro ⟨name, behind, rfl, isColor, closed⟩
    obtain ⟨arguments, further, rfl, without⟩ := List.eq_append_cons_of_mem closed
    exact ⟨_, leadingColor?_eq_some_iff.mpr ⟨name, arguments, further, rfl, isColor, without, rfl⟩⟩

/-- **A value has a word to keep just if its first character belongs to one.** -/
theorem leadingWord_eq_nil_iff :
    leadingWord chars = [] ↔ ∀ c ∈ chars.head?, isWordChar c = false := by
  cases chars with
  | nil => simp [leadingWord]
  | cons c rest => cases word : isWordChar c <;> simp [leadingWord, word]

/-- The arguments between the commas of a call are put in order one by one. -/
theorem isArgument_of_mem_pieces {arguments : List Char} (without : ')' ∉ arguments) :
    ∀ argument ∈ (Text.pieces (· == ',') arguments).map trimChars, IsArgument argument := by
  have only : ∀ c, (c == ',') = true ↔ c = ',' := fun c => beq_iff_eq
  obtain ⟨-, commaless, -⟩ := (Text.pieces_eq_iff only).mp (Eq.refl (Text.pieces _ arguments))
  intro argument listed
  obtain ⟨piece, divided, rfl⟩ := List.mem_map.mp listed
  exact ⟨Text.isTrimmed_trimChars piece,
    fun comma => commaless piece divided (Text.mem_of_mem_trimChars comma),
    fun closing => without (Text.mem_of_mem_pieces divided (Text.mem_of_mem_trimChars closing))⟩

/-- **A settled value has one of the two forms.** -/
theorem IsSettled.isOutput (settled : IsSettled property chars) : IsOutput chars := by
  cases settled with
  | color _ isColor without =>
    refine .color isColor ?_ (isArgument_of_mem_pieces without)
    rw [Ne, List.map_eq_nil_iff]
    exact Text.pieces_ne_nil _ _
  | word some_word each _ _ => exact .word some_word each

/-! ### Color calls -/

/-- A value that starts with a color call: blanks, the name, the arguments between commas, and
anything behind the closing parenthesis. -/
def colorValue (blanks name : List Char) (arguments : List (List Char)) (behind : List Char) :
    String :=
  String.ofList (blanks ++ (name ++ '(' :: ([','].intercalate arguments ++ ')' :: behind)))

/-- Trimming leaves a visible character where it is, and trims what stands behind it. -/
theorem dropWhileEnd_append_cons {c : Char} (visible : isBlank c = false)
    (front behind : List Char) :
    dropWhileEnd isBlank (front ++ c :: behind) = front ++ c :: dropWhileEnd isBlank behind := by
  have stops : (c :: front.reverse).dropWhile isBlank = c :: front.reverse :=
    List.dropWhile_cons_of_neg (by simp [visible])
  rw [dropWhileEnd, dropWhileEnd, List.reverse_append, List.reverse_cons, List.append_assoc,
    List.singleton_append, List.dropWhile_append]
  split
  · next nothing =>
    rw [stops, List.isEmpty_iff.mp nothing]
    simp
  · simp

/-- Only the blanks in front of a color call and those at the end are trimmed away. -/
theorem trimChars_colorValue {blanks name : List Char} (blank : ∀ c ∈ blanks, isBlank c = true)
    (isColor : isColorName name = true) (arguments : List (List Char)) (behind : List Char) :
    ∃ further, trimChars (colorValue blanks name arguments behind).toList =
      name ++ '(' :: ([','].intercalate arguments ++ ')' :: further) := by
  refine ⟨dropWhileEnd isBlank behind, ?_⟩
  have first : ∀ c ∈ (name ++ '(' :: ([','].intercalate arguments ++ ')' :: behind)).head?,
      isBlank c = false := by
    cases name with
    | nil => cases isColor
    | cons c name =>
      rintro d same
      obtain rfl := Option.some.inj same
      exact isBlank_of_isWordChar (isWordChar_of_isColorName isColor c List.mem_cons_self)
  rw [colorValue, String.toList_ofList, trimChars, List.dropWhile_append_of_pos blank,
    Text.dropWhile_isBlank_eq_self first]
  have closing := dropWhileEnd_append_cons (c := ')') rfl
    (name ++ '(' :: [','].intercalate arguments) behind
  simpa using closing

/-- Arguments without commas are set in order one by one. -/
theorem spacedArguments_intercalate {arguments : List (List Char)} (nonempty : arguments ≠ [])
    (commaless : ∀ argument ∈ arguments, ',' ∉ argument) :
    spacedArguments ([','].intercalate arguments) =
      [',', ' '].intercalate (arguments.map trimChars) := by
  have only : ∀ c, (c == ',') = true ↔ c = ',' := fun c => beq_iff_eq
  rw [spacedArguments, (Text.pieces_eq_iff only).mpr ⟨nonempty, commaless, rfl⟩]

/-- **The color of a value** is told by its name and its arguments without blanks around them. -/
theorem leadingColor?_colorValue {blanks name : List Char} {arguments : List (List Char)}
    (blank : ∀ c ∈ blanks, isBlank c = true) (isColor : isColorName name = true)
    (nonempty : arguments ≠ [])
    (without : ∀ argument ∈ arguments, ',' ∉ argument ∧ ')' ∉ argument) (behind : List Char) :
    leadingColor? (trimChars (colorValue blanks name arguments behind).toList) =
      some (name ++ '(' :: ([',', ' '].intercalate (arguments.map trimChars) ++ [')'])) := by
  obtain ⟨further, trimmed⟩ := trimChars_colorValue blank isColor arguments behind
  have unclosed : ')' ∉ [','].intercalate arguments := by
    intro member
    rcases Text.mem_of_mem_intercalate member with separator | ⟨argument, listed, inside⟩
    · revert separator
      decide
    · exact (without argument listed).2 inside
  refine leadingColor?_eq_some_iff.mpr ⟨name, _, further, trimmed, isColor, unclosed, ?_⟩
  rw [spacedArguments_intercalate nonempty fun argument listed => (without argument listed).1]

/-- **The translation of a value with a color to keep.** -/
theorem ofComputed_of_leadingColor {color : List Char}
    (leads : leadingColor? (trimChars raw.toList) = some color) :
    ofComputed property target raw =
      if appliesTo property target then
        .ok (some (if property = .lineHeight then "1" else String.ofList color))
      else .ok none := by
  have notNone : trimChars raw.toList ≠ "none".toList := by
    intro isNone
    rw [isNone, leadingColor?_of_word (List.all_eq_true.mp rfl)] at leads
    cases leads
  simp only [ofComputed, notNone, leads, false_or]
  cases appliesTo property target with
  | false => rfl
  | true => by_cases isHeight : property = .lineHeight <;> simp [isHeight]

/-! ### The grammar -/

/-- **What becomes of every computed value.** It is dropped just if it is the word `none` or its
property means nothing for the target. It is refused, with the value as it was given, just if
neither holds, the property is neither a line height nor a font family, and the value starts neither
with a color call nor with a character of a word. Otherwise it becomes a word or a color call in
order, and the latter depends on nothing but the name and the arguments without blanks around
them. -/
theorem ofComputed_grammar (property : Property) (target : Target) (raw : String) :
    (ofComputed property target raw = .ok none ↔
      trimChars raw.toList = "none".toList ∨ appliesTo property target = false) ∧
    (∀ failure, ofComputed property target raw = .error failure ↔
      failure = ⟨property, raw⟩ ∧
        ¬ (trimChars raw.toList = "none".toList ∨ appliesTo property target = false) ∧
        property ≠ .lineHeight ∧ property ≠ .fontFamily ∧
        ¬ StartsWithColor (trimChars raw.toList) ∧
        ∀ c ∈ (trimChars raw.toList).head?, isWordChar c = false) ∧
    (∀ value, ofComputed property target raw = .ok (some value) → IsOutput value.toList) ∧
    ∀ (blanks blanks' name : List Char) (arguments arguments' : List (List Char))
      (behind behind' : List Char),
      (∀ c ∈ blanks, isBlank c = true) → (∀ c ∈ blanks', isBlank c = true) →
      isColorName name = true → arguments ≠ [] →
      (∀ argument ∈ arguments, ',' ∉ argument ∧ ')' ∉ argument) →
      (∀ argument ∈ arguments', ',' ∉ argument ∧ ')' ∉ argument) →
      arguments.map trimChars = arguments'.map trimChars →
      ofComputed property target (colorValue blanks name arguments behind) =
        ofComputed property target (colorValue blanks' name arguments' behind') := by
  refine ⟨ofComputed_eq_none_iff, fun failure => ?_, fun value translated => ?_, ?_⟩
  · rw [ofComputed_eq_error_iff, ← isSome_leadingColor?_iff, ← leadingWord_eq_nil_iff,
      Bool.not_eq_true, Option.isSome_eq_false_iff, Option.isNone_iff_eq_none, not_or,
      Bool.not_eq_false, and_assoc]
  · exact (kept_of_ofComputed translated).2.isSettled.isOutput
  · intro blanks blanks' name arguments arguments' behind behind' blank blank' isColor nonempty
      without without' same
    have nonempty' : arguments' ≠ [] := by
      rintro rfl
      exact nonempty (List.map_eq_nil_iff.mp same)
    have first := leadingColor?_colorValue blank isColor nonempty without behind
    have second := leadingColor?_colorValue blank' isColor nonempty' without' behind'
    rw [ofComputed_of_leadingColor first, ofComputed_of_leadingColor second, same]

/-- A color call with blanks around its arguments and another word behind it. -/
theorem ofComputed_grammar_color :
    ofComputed .color .element " Rgb( 1,2\u00A0) solid" = ofComputed .color .element "Rgb(1,2)" ∧
      IsOutput "Rgb(1, 2)".toList := by
  have translated : ofComputed .color .element "Rgb(1,2)" = .ok (some "Rgb(1, 2)") := by
    decide +kernel
  obtain ⟨-, -, forms, color⟩ := ofComputed_grammar .color .element "Rgb(1,2)"
  have same := color [' '] [] "Rgb".toList [" 1".toList, "2\u00A0".toList] ["1".toList, "2".toList]
    " solid".toList [] (List.all_eq_true.mp rfl) nofun rfl (by decide) (by decide) (by decide)
    (by decide)
  exact ⟨same, forms _ translated⟩

end

end PagedHtml.Style
