/-
**Every declaration with a value sets a property or is reported.**

A declaration resolves to the property that its name spells, or to the background color if it spells
none and the value is a color at sight (`Resolves`). Among the declarations of a style the last one
that resolves to a property has set it, and those that resolve to none are reported, one by one and
in their order.

* `isBackgroundColor_iff`: which values are colors at sight;
* `resolve?_iff`: `resolve?` finds the property that a declaration resolves to;
* `ofDeclarations_accounts`: the style of some declarations and what is reported of them;
  declarations in two parts are a style laid over another.
-/

import PagedHtml.Proofs.Style.Declared

namespace PagedHtml.Style

open Css (Declaration)

/-! ### Values that are colors at sight -/

/-- The color functions, with what may stand between the digits of their arguments. -/
def colorCalls : List (String × List Char) :=
  [("rgb(", [',', ' ']), ("rgba(", [',', ' ']), ("hsl(", ['.', '%', ',', ' ']),
    ("hsla(", ['.', '%', ',', ' '])]

/-- **A value that is a color at sight**, of a declaration whose name has the form of the output:
for the shorthand a word, perhaps behind a number sign, and for every name a call of a color
function with plain numbers. -/
inductive LooksLikeColor (name : String) : List Char → Prop
  | word {mark word : List Char} : name = "background" → mark = [] ∨ mark = ['#'] → word ≠ [] →
      (∀ c ∈ word, c.isAlphanum = true) → LooksLikeColor name (mark ++ word)
  | call {function : String} {between opening arguments : List Char} :
      (function, between) ∈ colorCalls → opening.map Char.toLower = function.toList →
      arguments ≠ [] → (∀ c ∈ arguments, c.isDigit = true ∨ c ∈ between) →
      LooksLikeColor name (opening ++ arguments ++ [')'])

variable {name value : String}

theorem isColorWord_iff :
    isColorWord value = true ↔
      ∃ mark word, value.toList = mark ++ word ∧ (mark = [] ∨ mark = ['#']) ∧ word ≠ [] ∧
        ∀ c ∈ word, c.isAlphanum = true := by
  rw [isColorWord]
  split
  · next rest marked =>
    rw [marked, Bool.and_eq_true, List.all_eq_true]
    constructor
    · rintro ⟨nonempty, letters⟩
      exact ⟨['#'], rest, rfl, .inr rfl, by simpa using nonempty, letters⟩
    · rintro ⟨mark, word, split, rfl | rfl, nonempty, letters⟩
      · rw [List.nil_append] at split
        subst split
        exact absurd (letters '#' List.mem_cons_self) (by decide)
      · obtain rfl : rest = word := (List.cons.inj split).2
        exact ⟨by simpa using nonempty, letters⟩
  · next plain =>
    rw [Bool.and_eq_true, List.all_eq_true]
    constructor
    · rintro ⟨nonempty, letters⟩
      exact ⟨[], value.toList, rfl, .inl rfl, by simpa using nonempty, letters⟩
    · rintro ⟨mark, word, split, rfl | rfl, nonempty, letters⟩
      · rw [List.nil_append] at split
        rw [split]
        exact ⟨by simpa using nonempty, letters⟩
      · exact absurd split (plain word)

theorem isColorCall_iff {function : String} {allowed : Char → Bool} :
    isColorCall function allowed value = true ↔
      ∃ opening arguments, value.toList = opening ++ arguments ++ [')'] ∧
        opening.map Char.toLower = function.toList.map Char.toLower ∧ arguments ≠ [] ∧
        ∀ c ∈ arguments, allowed c = true := by
  constructor
  · intro call
    rw [isColorCall] at call
    split at call
    · cases call
    · next rest after =>
      obtain ⟨opening, whole, letters⟩ := Text.afterIgnoringCase?_eq_some_iff.mp after
      split at call
      · next arguments closed =>
        rw [Bool.and_eq_true, List.all_eq_true] at call
        have split : rest = arguments.reverse ++ [')'] := by
          rw [← List.reverse_cons, ← closed, List.reverse_reverse]
        refine ⟨opening, arguments.reverse, by rw [whole, split, List.append_assoc], letters,
          by simpa using call.1, fun c member => call.2 c (List.mem_reverse.mp member)⟩
      · cases call
  · rintro ⟨opening, arguments, whole, letters, nonempty, each⟩
    have after : Text.afterIgnoringCase? function.toList value.toList =
        some (arguments ++ [')']) :=
      Text.afterIgnoringCase?_eq_some_iff.mpr
        ⟨opening, by rw [whole, List.append_assoc], letters⟩
    simp only [isColorCall, after, List.reverse_append, List.reverse_singleton,
      List.singleton_append, Bool.and_eq_true, List.all_eq_true, List.mem_reverse]
    exact ⟨by simpa using nonempty, each⟩

/-- The names of color functions are written in small letters. -/
theorem map_toLower_of_mem_colorCalls {function : String} {between : List Char}
    (isColor : (function, between) ∈ colorCalls) :
    function.toList.map Char.toLower = function.toList := by
  have every : ∀ call ∈ colorCalls, call.1.toList.map Char.toLower = call.1.toList := by decide
  exact every _ isColor

theorem isBackgroundColor_eq :
    isBackgroundColor name value =
      ((name == "background" && isColorWord value) ||
        colorCalls.any fun call =>
          isColorCall call.1 (fun c => c.isDigit || call.2.contains c) value) := by
  simp only [isBackgroundColor, colorCalls, List.any_cons, List.any_nil, List.contains_cons,
    List.contains_nil, Bool.or_false, Bool.or_assoc]

/-- **Which values are colors at sight.** -/
theorem isBackgroundColor_iff :
    isBackgroundColor name value = true ↔ LooksLikeColor name value.toList := by
  rw [isBackgroundColor_eq, Bool.or_eq_true, Bool.and_eq_true, beq_iff_eq, isColorWord_iff,
    List.any_eq_true]
  constructor
  · rintro (⟨shorthand, mark, word, split, marked, nonempty, letters⟩ |
      ⟨⟨function, between⟩, isColor, call⟩)
    · rw [split]
      exact .word shorthand marked nonempty letters
    · obtain ⟨opening, arguments, split, letters, nonempty, each⟩ := isColorCall_iff.mp call
      rw [split]
      refine .call isColor (letters.trans (map_toLower_of_mem_colorCalls isColor)) nonempty ?_
      simpa using each
  · generalize chars_eq : value.toList = chars
    intro looks
    cases looks with
    | word shorthand marked nonempty letters =>
      exact .inl ⟨shorthand, _, _, rfl, marked, nonempty, letters⟩
    | @call function between opening arguments isColor letters nonempty each =>
      refine .inr ⟨⟨function, between⟩, isColor, isColorCall_iff.mpr
        ⟨opening, arguments, chars_eq, ?_, nonempty, by simpa using each⟩⟩
      exact letters.trans (map_toLower_of_mem_colorCalls isColor).symm

/-! ### The property that a declaration resolves to -/

/-- **The property that a declaration resolves to**, by its name and the text of its value: the one
whose name is the name of the declaration in the form of the output, or the background color where
there is none of this name and the value is a color at sight. -/
inductive Resolves (name value : String) : Property → Prop
  | named {property : Property} : property.name = camelize (Text.lower name) →
      Resolves name value property
  | color : (∀ property : Property, property.name ≠ camelize (Text.lower name)) →
      LooksLikeColor (camelize (Text.lower name)) value.toList →
      Resolves name value .backgroundColor

theorem ofName?_eq_none_iff {camel : String} :
    Property.ofName? camel = none ↔ ∀ property : Property, property.name ≠ camel := by
  rw [Option.eq_none_iff_forall_ne_some]
  exact forall_congr' fun property => not_congr Property.ofName?_eq_some_iff

/-- **`resolve?` finds the property that a declaration resolves to.** -/
theorem resolve?_iff {property : Property} :
    resolve? name value = some property ↔ Resolves name value property := by
  rw [resolve?]
  cases found : Property.ofName? (camelize (Text.lower name)) with
  | some other =>
    have named := Property.ofName?_eq_some_iff.mp found
    simp only
    constructor
    · intro same
      obtain rfl := Option.some.inj same
      exact .named named
    · intro resolves
      cases resolves with
      | named also => rw [← found, ← also, Property.ofName?_name]
      | color unnamed => exact absurd named (unnamed other)
  | none =>
    have unnamed := ofName?_eq_none_iff.mp found
    simp only
    constructor
    · intro same
      obtain ⟨color, isBackground⟩ := Option.ite_none_right_eq_some.mp same
      obtain rfl := Option.some.inj isBackground
      exact .color unnamed (isBackgroundColor_iff.mp color)
    · intro resolves
      cases resolves with
      | named named => exact absurd named (unnamed property)
      | color _ looks => exact if_pos (isBackgroundColor_iff.mpr looks)

theorem resolve?_eq_none_iff :
    resolve? name value = none ↔ ∀ property, ¬ Resolves name value property := by
  rw [Option.eq_none_iff_forall_ne_some]
  exact forall_congr' fun property => not_congr resolve?_iff

/-- **That a declaration sets a property**: it has a value and resolves to the property. -/
def Sets (declaration : Declaration) (property : Property) : Prop :=
  declaration.valueText ≠ "" ∧ Resolves declaration.name declaration.valueText property

/-- **That a declaration is unsupported**: it has a value and resolves to no property. -/
def IsUnsupported (declaration : Declaration) : Prop :=
  declaration.valueText ≠ "" ∧
    ∀ property, ¬ Resolves declaration.name declaration.valueText property

instance : DecidablePred IsUnsupported := fun declaration =>
  decidable_of_iff (declaration.valueText ≠ "" ∧
      resolve? declaration.name declaration.valueText = none)
    (and_congr_right fun _ => resolve?_eq_none_iff)

section

variable {source : String} {declaration : Declaration} {property : Property}

theorem sets?_eq_some_iff_sets {value : Value} :
    sets? property declaration = some value ↔
      Sets declaration property ∧ value = .text declaration.valueText := by
  rw [sets?, Option.ite_none_right_eq_some, resolve?_iff, Option.some.injEq, eq_comm]
  rfl

theorem sets?_eq_none_iff_not_sets :
    sets? property declaration = none ↔ ¬ Sets declaration property := by
  rw [sets?_eq_none_iff, resolve?_iff]
  rfl

/-- A declaration sets one property at most. -/
theorem Sets.unique {other : Property} (sets : Sets declaration property)
    (also : Sets declaration other) : other = property := by
  have first := resolve?_iff.mpr sets.2
  rw [resolve?_iff.mpr also.2] at first
  exact Option.some.inj first

theorem unsupported?_eq :
    unsupported? source declaration =
      if IsUnsupported declaration then
        some (.unsupportedProperty source declaration.name declaration.valueText)
      else none := by
  have same : (declaration.valueText ≠ "" ∧
      resolve? declaration.name declaration.valueText = none) ↔ IsUnsupported declaration :=
    and_congr_right fun _ => resolve?_eq_none_iff
  rw [unsupported?]
  exact if_congr same rfl rfl

end

/-! ### The style of some declarations -/

section

variable {source : String} {declarations : List Declaration} {property : Property}

/-- **What a style has was set by the last declaration that resolves to the property.** -/
theorem get?_ofDeclarations_eq_some_iff {value : Value} :
    (ofDeclarations source declarations).value.get? property = some value ↔
      ∃ before last after, declarations = before ++ last :: after ∧
        (Sets last property ∧ value = .text last.valueText) ∧
        ∀ later ∈ after, ¬ Sets later property := by
  rw [get?_ofDeclarations, findSome?_reverse_eq_some_iff]
  simp only [sets?_eq_some_iff_sets, sets?_eq_none_iff_not_sets]

theorem get?_ofDeclarations_eq_none_iff :
    (ofDeclarations source declarations).value.get? property = none ↔
      ∀ declaration ∈ declarations, ¬ Sets declaration property := by
  rw [get?_ofDeclarations, List.findSome?_eq_none_iff]
  simp only [List.mem_reverse, sets?_eq_none_iff_not_sets]

/-- The unsupported declarations are reported one by one. -/
theorem diagnostics_ofDeclarations_eq_map :
    (ofDeclarations source declarations).diagnostics =
      (declarations.filter fun declaration => IsUnsupported declaration).map fun declaration =>
        .unsupportedProperty source declaration.name declaration.valueText := by
  rw [diagnostics_ofDeclarations]
  induction declarations with
  | nil => rfl
  | cons declaration rest ih =>
    rw [List.filterMap_cons, List.filter_cons, ih, unsupported?_eq]
    by_cases unsupported : IsUnsupported declaration
    · simp [unsupported]
    · simp [unsupported]

/-- **Declarations in two parts are a style laid over another.** -/
theorem ofDeclarations_append (first second : List Declaration) :
    ofDeclarations source (first ++ second) =
      ⟨(ofDeclarations source first).value.merge (ofDeclarations source second).value,
        (ofDeclarations source first).diagnostics ++
          (ofDeclarations source second).diagnostics⟩ := by
  have value : (ofDeclarations source (first ++ second)).value =
      (ofDeclarations source first).value.merge (ofDeclarations source second).value := by
    apply Map.ext
    funext property
    rw [Map.get?_merge, get?_ofDeclarations, get?_ofDeclarations, get?_ofDeclarations,
      List.reverse_append, List.findSome?_append]
  have diagnostics : (ofDeclarations source (first ++ second)).diagnostics =
      (ofDeclarations source first).diagnostics ++ (ofDeclarations source second).diagnostics := by
    rw [diagnostics_ofDeclarations, diagnostics_ofDeclarations, diagnostics_ofDeclarations,
      List.filterMap_append]
  rw [← value, ← diagnostics]

/-- **Every declaration is accounted for.** With a value it either sets exactly one property or is
unsupported, and without one neither. The style sets the properties that some declaration sets, each
to the value of the last one that does, and what is reported are the unsupported declarations, each
once and in their order. So further declarations are a style laid over the first one, and what is
reported of them follows. -/
theorem ofDeclarations_accounts (source : String) (declarations : List Declaration) :
    (∀ declaration : Declaration,
      (declaration.valueText ≠ "" →
        Xor (∃! property, Sets declaration property) (IsUnsupported declaration)) ∧
      (declaration.valueText = "" →
        (∀ property, ¬ Sets declaration property) ∧ ¬ IsUnsupported declaration)) ∧
    (∀ property, (ofDeclarations source declarations).value.contains property = true ↔
      ∃ declaration ∈ declarations, Sets declaration property) ∧
    (∀ property value,
      (ofDeclarations source declarations).value.get? property = some value ↔
        ∃ before last after, declarations = before ++ last :: after ∧
          (Sets last property ∧ value = .text last.valueText) ∧
          ∀ later ∈ after, ¬ Sets later property) ∧
    (ofDeclarations source declarations).diagnostics =
      ((declarations.filter fun declaration => IsUnsupported declaration).map fun declaration =>
        .unsupportedProperty source declaration.name declaration.valueText) ∧
    ∀ more, ofDeclarations source (declarations ++ more) =
      ⟨(ofDeclarations source declarations).value.merge (ofDeclarations source more).value,
        (ofDeclarations source declarations).diagnostics ++
          (ofDeclarations source more).diagnostics⟩ := by
  refine ⟨fun declaration => ⟨fun valued => ?_, fun blank => ?_⟩, fun property => ?_,
    fun property value => get?_ofDeclarations_eq_some_iff, diagnostics_ofDeclarations_eq_map,
    ofDeclarations_append declarations⟩
  · by_cases unsupported : IsUnsupported declaration
    · refine .inr ⟨unsupported, ?_⟩
      rintro ⟨property, sets, -⟩
      exact unsupported.2 property sets.2
    · obtain ⟨property, resolves⟩ : ∃ property,
          Resolves declaration.name declaration.valueText property := by
        by_contra none
        exact unsupported ⟨valued, not_exists.mp none⟩
      have sets : Sets declaration property := ⟨valued, resolves⟩
      exact .inl ⟨⟨property, sets, fun other also => sets.unique also⟩, unsupported⟩
  · exact ⟨fun property sets => sets.1 blank, fun unsupported => unsupported.1 blank⟩
  · rw [Map.contains, ← not_iff_not, Bool.not_eq_true, Option.isSome_eq_false_iff,
      Option.isNone_iff_eq_none, get?_ofDeclarations_eq_none_iff]
    simp only [not_exists, not_and]

end

end PagedHtml.Style
