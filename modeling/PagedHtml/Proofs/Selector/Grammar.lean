/-
**Which texts are selectors.**

A selector is written as compounds with combinators between them: spaces for a descendant, and a
mark `>` for a child, with spaces on either side of it or none (`IsCombinator`). What is read is
more than that, for a run of spaces and marks asks for a child if there is any mark in it (`IsRun`).

* `parse?_eq_some_iff`: what is read as a selector are its compounds, the outermost first, with runs
  between them, and each name as long as it can be;
* `spells_isCombinator_iff`: combinators are the runs in which no two marks stand side by side,
  spaces aside;
* `parse?_of_respaced`: the spaces around marks, and their number, make no difference;
* `parse?_grammar`: all of this for any text.
-/

import Mathlib.Logic.Relation
import PagedHtml.Proofs.Selector.Compounds
import PagedHtml.Proofs.Text.Pieces

namespace PagedHtml.Selector

/-! ### Combinators and compounds -/

/-- **That characters stand for a combinator**: spaces for a descendant, and one mark among spaces
for a child. -/
def IsCombinator : Combinator → List Char → Prop
  | .descendant, chars => chars ≠ [] ∧ ∀ c ∈ chars, Text.isSpace c = true
  | .child, chars => ∃ before after, chars = before ++ '>' :: after ∧
      (∀ c ∈ before, Text.isSpace c = true) ∧ ∀ c ∈ after, Text.isSpace c = true

/-- **That characters are read as a combinator**: spaces and marks, which stand for a child just if
there is a mark among them. -/
def IsRun (combinator : Combinator) (chars : List Char) : Prop :=
  chars ≠ [] ∧ (∀ c ∈ chars, isGap c = true) ∧ (combinator = .child ↔ '>' ∈ chars)

/-- That a compound can be written: it has a condition, and the names in it consist of characters of
names. -/
structure IsCompound (compound : Compound) : Prop where
  nonempty : compound ≠ []
  spellable : ∀ simple ∈ compound, simple.IsSpellable

/-- That a compound is written with whole names. -/
structure IsWholeCompound (compound : Compound) : Prop extends IsCompound compound where
  whole : IsWhole compound

/-! ### Spelling -/

section

variable (between : Combinator → List Char → Prop) (admits : Compound → Prop)

/-- That characters spell what stands around a compound, each compound with the combinator to its
right; the nearest one stands last in the text. -/
inductive SpellsAround : List (Combinator × Compound) → List Char → Prop
  | nil : SpellsAround [] []
  | cons {more : List (Combinator × Compound)} {lead gap : List Char} {combinator : Combinator}
      {compound : Compound} (further : SpellsAround more lead) (admitted : admits compound)
      (separate : between combinator gap) :
      SpellsAround ((combinator, compound) :: more) (lead ++ compoundChars compound ++ gap)

/-- **That characters spell a selector**: its subject last, and what stands around in front of it.
-/
def Spells (selector : Selector) (chars : List Char) : Prop :=
  ∃ lead, SpellsAround between admits selector.around lead ∧ admits selector.subject ∧
    chars = lead ++ compoundChars selector.subject

end

variable {chars rest lead gap : List Char} {compound : Compound} {selector : Selector}
  {around : List (Combinator × Compound)} {combinator : Combinator}

theorem IsCompound.exists_cons (isCompound : IsCompound compound) :
    ∃ c more, compoundChars compound = c :: more ∧ isGap c = false := by
  obtain ⟨simple, others, rfl⟩ := List.exists_cons_of_ne_nil isCompound.nonempty
  obtain ⟨c, more, split, solid, -⟩ :=
    exists_cons_text (isCompound.spellable simple List.mem_cons_self)
  exact ⟨c, more ++ compoundChars others, by rw [compoundChars_cons, split]; rfl, solid⟩

theorem IsCompound.all_isGap (isCompound : IsCompound compound) (rest : List Char) :
    (compoundChars compound ++ rest).head?.all isGap = false := by
  obtain ⟨c, more, split, solid⟩ := isCompound.exists_cons
  rw [split]
  exact solid

/-! ### Reading -/

/-- The combinator that a run is read as. -/
def combinatorOf (run : List Char) : Combinator := if '>' ∈ run then .child else .descendant

theorem isRun_iff (gaps : ∀ c ∈ gap, isGap c = true) (nonempty : gap ≠ []) :
    IsRun combinator gap ↔ combinator = combinatorOf gap := by
  unfold IsRun combinatorOf
  by_cases mark : '>' ∈ gap
  · simp [nonempty, mark]
    exact fun _ => gaps
  · cases combinator <;> simp [nonempty, mark]
    exact gaps

/-- **One step of reading**: a compound is taken, and the run behind it. -/
theorem readFrom?_eq (around : List (Combinator × Compound)) (chars : List Char) :
    readFrom? around chars = (takeCompound? chars).bind fun (compound, rest) =>
      if rest.dropWhile isGap = [] then
        if '>' ∈ rest.takeWhile isGap then none else some ⟨compound, around⟩
      else readFrom? ((combinatorOf (rest.takeWhile isGap), compound) :: around)
        (rest.dropWhile isGap) := by
  rw [readFrom?]
  split
  · next nothing => rw [nothing]; rfl
  · next compound taken => rw [taken]; rfl
  · next compound c rest taken =>
    have gap : isGap c = true := by
      obtain ⟨-, -, -, starts⟩ := takeCompound?_eq_some_iff.mp taken
      exact starts
    have mark : (c == '>' || (rest.takeWhile isGap).contains '>') = true ↔
        '>' ∈ (c :: rest).takeWhile isGap := by
      rw [List.takeWhile_cons_of_pos gap, List.mem_cons, Bool.or_eq_true, beq_iff_eq, eq_comm,
        List.contains_iff_mem]
    conv_rhs => rw [taken, Option.bind_some]
    simp only [mark, List.dropWhile_cons_of_pos gap, List.isEmpty_iff, combinatorOf]

/-! ### What is read -/

/-- A run and what is behind it, if that starts with no gap. -/
theorem takeWhile_run (gaps : ∀ c ∈ gap, isGap c = true) (stops : rest.head?.all isGap = false) :
    (gap ++ rest).takeWhile isGap = gap ∧ (gap ++ rest).dropWhile isGap = rest ∧ rest ≠ [] := by
  have some_rest : rest ≠ [] := by
    rintro rfl
    cases stops
  obtain ⟨c, more, rfl⟩ := List.exists_cons_of_ne_nil some_rest
  have stops : (c :: more).head?.any isGap = false := stops
  obtain ⟨nothing, all⟩ := takeWhile_of_any_head? stops
  rw [List.takeWhile_append_of_pos gaps, List.dropWhile_append_of_pos gaps, nothing, all,
    List.append_nil]
  exact ⟨rfl, rfl, some_rest⟩

/-- A compound with a run behind it is read as what stands around the next one. -/
theorem readFrom?_of_isRun (whole : IsWholeCompound compound) (run : IsRun combinator gap)
    (stops : rest.head?.all isGap = false) (around : List (Combinator × Compound)) :
    readFrom? around (compoundChars compound ++ (gap ++ rest)) =
      readFrom? ((combinator, compound) :: around) rest := by
  obtain ⟨nonempty, gaps, mark⟩ := run
  obtain rfl := (isRun_iff gaps nonempty).mp ⟨nonempty, gaps, mark⟩
  have starts : (gap ++ rest).head?.all isGap = true := by
    obtain ⟨c, more, rfl⟩ := List.exists_cons_of_ne_nil nonempty
    exact gaps c List.mem_cons_self
  have taken := takeCompound?_eq_some_iff.mpr ⟨whole.spellable, whole.whole, rfl, starts⟩
  obtain ⟨same, left, some_rest⟩ := takeWhile_run gaps stops
  rw [readFrom?_eq, taken, Option.bind_some]
  simp only [same, left, if_neg some_rest]

theorem all_isGap_of_spellsAround (spelled : SpellsAround IsRun IsWholeCompound around lead)
    (stops : rest.head?.all isGap = false) : (lead ++ rest).head?.all isGap = false := by
  induction spelled generalizing rest with
  | nil => exact stops
  | cons further whole run ih =>
    rw [List.append_assoc, List.append_assoc]
    exact ih (whole.all_isGap _)

/-- **What stands around the compound at which the rest starts** has been read before it. -/
theorem readFrom?_of_spellsAround (spelled : SpellsAround IsRun IsWholeCompound around lead)
    (stops : rest.head?.all isGap = false) :
    readFrom? [] (lead ++ rest) = readFrom? around rest := by
  induction spelled generalizing rest with
  | nil => rfl
  | cons further whole run ih =>
    rw [List.append_assoc, List.append_assoc, ih (whole.all_isGap _),
      readFrom?_of_isRun whole run stops]

/-- No gap is left behind the last compound of a text without blanks at its ends, unless there is a
mark of a child in it. -/
theorem mem_of_isTrimmed {c : Char} (trimmed : Text.IsTrimmed chars) (behind : c :: rest <:+ chars)
    (gaps : ∀ gap ∈ c :: rest, isGap gap = true) : '>' ∈ c :: rest := by
  obtain ⟨before, rfl⟩ := behind
  obtain ⟨last, isLast⟩ : ∃ last, (c :: rest).getLast? = some last :=
    Option.isSome_iff_exists.mp (by simp)
  have visible : Text.isBlank last = false := by
    refine trimmed.2 last ?_
    rw [List.getLast?_append, isLast]
    rfl
  have member := List.mem_of_getLast? isLast
  have gap := gaps last member
  rw [isGap, Bool.or_eq_true, beq_iff_eq] at gap
  rcases gap with space | rfl
  · rw [Text.isBlank_of_isSpace space] at visible
    cases visible
  · exact member

/-- **What is read as a selector spells it**, behind what is already read. -/
theorem spells_of_readFrom? (trimmed : Text.IsTrimmed (lead ++ chars))
    (starts : chars.head?.all isGap = false)
    (spelled : SpellsAround IsRun IsWholeCompound around lead)
    (read : readFrom? around chars = some selector) :
    Spells IsRun IsWholeCompound selector (lead ++ chars) := by
  induction length : chars.length using Nat.strongRecOn generalizing around lead chars with
  | ind length ih =>
    subst length
    rw [readFrom?_eq, Option.bind_eq_some_iff] at read
    obtain ⟨⟨compound, rest⟩, taken, read⟩ := read
    dsimp only at read
    obtain ⟨spellable, whole, rfl, gap⟩ := takeCompound?_eq_some_iff.mp taken
    have isWhole : IsWholeCompound compound := by
      refine ⟨⟨?_, spellable⟩, whole⟩
      rintro rfl
      rw [compoundChars_nil, List.nil_append, gap] at starts
      cases starts
    have run := List.takeWhile_append_dropWhile (p := isGap) (l := rest)
    have gaps : ∀ c ∈ rest.takeWhile isGap, isGap c = true :=
      List.all_eq_true.mp List.all_takeWhile
    split at read
    · next nothing =>
      -- Nothing is left, for at the end of a trimmed text there is no gap without a mark.
      obtain ⟨unmarked, same⟩ := Option.ite_none_left_eq_some.mp read
      cases same
      rw [nothing, List.append_nil] at run
      cases rest with
      | nil => exact ⟨lead, spelled, isWhole, by rw [List.append_nil]⟩
      | cons c rest =>
        rw [run] at gaps unmarked
        exact absurd (mem_of_isTrimmed trimmed (by
          rw [← List.append_assoc]
          exact List.suffix_append _ _) gaps) unmarked
    · next some_after =>
      have stops : (rest.dropWhile isGap).head?.all isGap = false := by
        have none_left := any_head?_dropWhile isGap rest
        obtain ⟨c, after, split⟩ := List.exists_cons_of_ne_nil some_after
        rw [split] at none_left ⊢
        exact none_left
      have nonempty : rest.takeWhile isGap ≠ [] := by
        intro nothing
        rw [nothing, List.nil_append] at run
        rw [run, gap] at stops
        cases stops
      have further : SpellsAround IsRun IsWholeCompound _ _ :=
        .cons spelled isWhole ((isRun_iff gaps nonempty).mpr rfl)
      have same : lead ++ (compoundChars compound ++ rest) =
          (lead ++ compoundChars compound ++ rest.takeWhile isGap) ++ rest.dropWhile isGap := by
        conv_lhs => rw [← run]
        simp only [List.append_assoc]
      rw [same] at trimmed ⊢
      refine ih _ ?_ trimmed stops further read rfl
      have shorter := (List.dropWhile_suffix (l := rest) isGap).length_le
      have positive : 0 < (rest.takeWhile isGap).length := List.length_pos_iff.mpr nonempty
      have parts := congrArg List.length run
      rw [List.length_append] at parts ⊢
      omega

/-- **What is read as a selector**: the texts that spell it with whole names and with runs between
its compounds. -/
theorem parse?_eq_some_iff {text : String} :
    parse? text = some selector ↔
      Spells IsRun IsWholeCompound selector (Text.trimChars text.toList) := by
  have trimmed := Text.isTrimmed_trimChars text.toList
  rw [parse?]
  generalize Text.trimChars text.toList = chars at trimmed ⊢
  constructor
  · intro read
    split at read
    · cases read
    · next starts =>
      have trimmed : Text.IsTrimmed ([] ++ chars) := trimmed
      exact spells_of_readFrom? trimmed (Bool.eq_false_iff.mpr starts) .nil read
  · rintro ⟨lead, spelled, whole, rfl⟩
    have starts := whole.all_isGap []
    rw [List.append_nil] at starts
    rw [if_neg (Bool.eq_false_iff.mp (all_isGap_of_spellsAround spelled starts)),
      readFrom?_of_spellsAround spelled starts, readFrom?_eq]
    have taken := takeCompound?_eq_some_iff.mpr
      ⟨whole.spellable, whole.whole, (List.append_nil _).symm, rfl⟩
    rw [taken]
    rfl

/-! ### Whole names -/

section

variable {between : Combinator → List Char → Prop} {admits other : Compound → Prop}

theorem SpellsAround.mono (widens : ∀ compound, admits compound → other compound)
    (spelled : SpellsAround between admits around lead) :
    SpellsAround between other around lead := by
  induction spelled with
  | nil => exact .nil
  | cons further admitted separate ih => exact .cons ih (widens _ admitted) separate

theorem IsCompound.exists_whole (isCompound : IsCompound compound) :
    ∃ whole, IsWholeCompound whole ∧ compoundChars whole = compoundChars compound := by
  obtain ⟨whole, isWhole, spellable, same⟩ := exists_isWhole isCompound.spellable
  refine ⟨whole, ⟨⟨?_, spellable⟩, isWhole⟩, same⟩
  rintro rfl
  obtain ⟨c, more, split, -⟩ := isCompound.exists_cons
  rw [split] at same
  cases same

theorem SpellsAround.exists_whole (spelled : SpellsAround between IsCompound around lead) :
    ∃ whole, SpellsAround between IsWholeCompound whole lead := by
  induction spelled with
  | nil => exact ⟨[], .nil⟩
  | @cons more lead gap combinator compound further isCompound separate ih =>
    obtain ⟨around, again⟩ := ih
    obtain ⟨whole, isWhole, same⟩ := isCompound.exists_whole
    refine ⟨(combinator, whole) :: around, ?_⟩
    rw [← same]
    exact .cons again isWhole separate

/-- **Whatever is written with names of any length is written with whole names.** -/
theorem exists_spells_isWholeCompound_iff :
    (∃ selector, Spells between IsWholeCompound selector chars) ↔
      ∃ selector, Spells between IsCompound selector chars := by
  constructor
  · rintro ⟨selector, lead, spelled, isWhole, rfl⟩
    exact ⟨selector, lead, spelled.mono fun _ whole => whole.toIsCompound, isWhole.toIsCompound,
      rfl⟩
  · rintro ⟨selector, lead, spelled, isCompound, rfl⟩
    obtain ⟨around, again⟩ := spelled.exists_whole
    obtain ⟨subject, isWhole, same⟩ := isCompound.exists_whole
    exact ⟨⟨subject, around⟩, lead, again, isWhole, by rw [same]⟩

end

/-! ### Marks side by side -/

/-- **That no two marks stand side by side**, spaces aside. -/
def IsUndoubled (chars : List Char) : Prop :=
  (chars.filter fun c => !Text.isSpace c).IsChain fun first second => first = '>' → second ≠ '>'

instance (chars : List Char) : Decidable (IsUndoubled chars) :=
  inferInstanceAs (Decidable (List.IsChain _ _))

theorem isUndoubled_nil : IsUndoubled [] := List.IsChain.nil

/-- Marks on either side of something without gaps do not stand side by side. -/
theorem isUndoubled_append {solid : List Char} (nonempty : solid ≠ [])
    (without : ∀ c ∈ solid, isGap c = false) :
    IsUndoubled (lead ++ solid ++ gap) ↔ IsUndoubled lead ∧ IsUndoubled gap := by
  have shown : solid.filter (fun c => !Text.isSpace c) = solid := by
    refine List.filter_eq_self.mpr fun c member => ?_
    have noGap := without c member
    rw [isGap, Bool.or_eq_false_iff] at noGap
    rw [noGap.1]
    rfl
  have unmarked : ∀ c ∈ solid, c ≠ '>' := by
    rintro c member rfl
    exact absurd (without _ member) (by decide)
  have alone : solid.IsChain fun first second => first = '>' → second ≠ '>' := by
    refine List.Pairwise.isChain (List.pairwise_of_forall_mem_list ?_)
    exact fun first member second _ mark => absurd mark (unmarked first member)
  have last : ∀ c ∈ (lead.filter (fun c => !Text.isSpace c) ++ solid).getLast?, c ≠ '>' := by
    intro c member
    rw [List.getLast?_append_of_ne_nil _ nonempty] at member
    exact unmarked c (List.mem_of_getLast? member)
  have first : ∀ c ∈ solid.head?, c ≠ '>' := fun c member => unmarked c (List.mem_of_head? member)
  unfold IsUndoubled
  rw [List.filter_append, List.filter_append, shown, List.isChain_append, List.isChain_append]
  constructor
  · rintro ⟨⟨left, -, -⟩, right, -⟩
    exact ⟨left, right⟩
  · rintro ⟨left, right⟩
    exact ⟨⟨left, alone, fun _ _ c member _ => first c member⟩, right,
      fun c member _ _ mark => absurd mark (last c member)⟩

theorem isGap_of_isSpace {c : Char} (space : Text.isSpace c = true) : isGap c = true := by
  rw [isGap, space]
  rfl

/-- A run without a mark consists of spaces. -/
theorem isSpace_of_unmarked (gaps : ∀ c ∈ gap, isGap c = true) (unmarked : '>' ∉ gap) :
    ∀ c ∈ gap, Text.isSpace c = true := by
  intro c member
  have other : c ≠ '>' := by
    rintro rfl
    exact unmarked member
  simpa [isGap, other] using gaps c member

theorem unmarked_of_isSpace (spaces : ∀ c ∈ gap, Text.isSpace c = true) : '>' ∉ gap :=
  fun member => absurd (spaces _ member) (by decide)

theorem filter_of_isSpace (spaces : ∀ c ∈ gap, Text.isSpace c = true) :
    gap.filter (fun c => !Text.isSpace c) = [] :=
  List.filter_eq_nil_iff.mpr fun c member => by simp [spaces c member]

/-- Two marks in a run stand side by side, if there is no other one before or between them. -/
theorem not_isUndoubled {before inner outer : List Char}
    (spacesBefore : ∀ c ∈ before, Text.isSpace c = true)
    (spacesInner : ∀ c ∈ inner, Text.isSpace c = true) :
    ¬ IsUndoubled (before ++ '>' :: (inner ++ '>' :: outer)) := by
  intro undoubled
  rw [IsUndoubled, List.filter_append, filter_of_isSpace spacesBefore,
    List.filter_cons_of_pos (by decide), List.filter_append, filter_of_isSpace spacesInner,
    List.filter_cons_of_pos (by decide)] at undoubled
  exact (List.isChain_cons.mp undoubled).1 '>' rfl rfl rfl

/-- **A combinator is a run without two marks.** -/
theorem isCombinator_iff :
    IsCombinator combinator gap ↔ IsRun combinator gap ∧ IsUndoubled gap := by
  cases combinator with
  | descendant =>
    have other : Combinator.descendant ≠ .child := by decide
    constructor
    · rintro ⟨nonempty, spaces⟩
      refine ⟨⟨nonempty, fun c member => isGap_of_isSpace (spaces c member),
        iff_of_false other (unmarked_of_isSpace spaces)⟩, ?_⟩
      rw [IsUndoubled, filter_of_isSpace spaces]
      exact .nil
    · rintro ⟨⟨nonempty, gaps, mark⟩, -⟩
      exact ⟨nonempty, isSpace_of_unmarked gaps fun member => other (mark.mpr member)⟩
  | child =>
    constructor
    · rintro ⟨before, after, rfl, left, right⟩
      refine ⟨⟨by simp, ?_, iff_of_true rfl (by simp)⟩, ?_⟩
      · refine List.forall_mem_append.mpr ⟨fun c member => isGap_of_isSpace (left c member), ?_⟩
        exact List.forall_mem_cons.mpr
          ⟨by decide, fun c member => isGap_of_isSpace (right c member)⟩
      · rw [IsUndoubled, List.filter_append, filter_of_isSpace left,
          List.filter_cons_of_pos (by decide), filter_of_isSpace right]
        exact .singleton _
    · rintro ⟨⟨nonempty, gaps, mark⟩, undoubled⟩
      obtain ⟨before, after, rfl, first⟩ := List.eq_append_cons_of_mem (mark.mp rfl)
      obtain ⟨gapsBefore, gapsFrom⟩ := List.forall_mem_append.mp gaps
      have gapsAfter := (List.forall_mem_cons.mp gapsFrom).2
      have spacesBefore := isSpace_of_unmarked gapsBefore first
      refine ⟨before, after, rfl, spacesBefore, isSpace_of_unmarked gapsAfter fun again => ?_⟩
      -- A second mark would stand right behind the first one, spaces aside.
      obtain ⟨inner, outer, rfl, second⟩ := List.eq_append_cons_of_mem again
      have spacesInner := isSpace_of_unmarked (List.forall_mem_append.mp gapsAfter).1 second
      exact not_isUndoubled spacesBefore spacesInner undoubled

/-- **The texts with single marks** are those that are read and have no two marks side by side. -/
theorem spells_isCombinator_iff {admits : Compound → Prop}
    (compounds : ∀ compound, admits compound → IsCompound compound) :
    Spells IsCombinator admits selector chars ↔
      Spells IsRun admits selector chars ∧ IsUndoubled chars := by
  have solid {compound : Compound} (admitted : admits compound) :
      compoundChars compound ≠ [] ∧ ∀ c ∈ compoundChars compound, isGap c = false := by
    obtain ⟨c, more, split, -⟩ := (compounds _ admitted).exists_cons
    exact ⟨by rw [split]; exact List.cons_ne_nil c more,
      isGap_eq_false_of_mem_compoundChars (compounds _ admitted).spellable⟩
  have leads {around : List (Combinator × Compound)} {lead : List Char} :
      SpellsAround IsCombinator admits around lead ↔
        SpellsAround IsRun admits around lead ∧ IsUndoubled lead := by
    constructor
    · intro spelled
      induction spelled with
      | nil => exact ⟨.nil, isUndoubled_nil⟩
      | cons further admitted separate ih =>
        obtain ⟨run, single⟩ := isCombinator_iff.mp separate
        obtain ⟨nonempty, without⟩ := solid admitted
        exact ⟨.cons ih.1 admitted run, (isUndoubled_append nonempty without).mpr ⟨ih.2, single⟩⟩
    · rintro ⟨spelled, undoubled⟩
      induction spelled with
      | nil => exact .nil
      | cons further admitted separate ih =>
        obtain ⟨nonempty, without⟩ := solid admitted
        obtain ⟨left, single⟩ := (isUndoubled_append nonempty without).mp undoubled
        exact .cons (ih left) admitted (isCombinator_iff.mpr ⟨separate, single⟩)
  constructor
  · rintro ⟨lead, spelled, admitted, rfl⟩
    obtain ⟨run, undoubled⟩ := leads.mp spelled
    obtain ⟨nonempty, without⟩ := solid admitted
    have whole := (isUndoubled_append nonempty without).mpr ⟨undoubled, isUndoubled_nil⟩
    rw [List.append_nil] at whole
    exact ⟨⟨lead, run, admitted, rfl⟩, whole⟩
  · rintro ⟨⟨lead, spelled, admitted, rfl⟩, undoubled⟩
    obtain ⟨nonempty, without⟩ := solid admitted
    rw [← List.append_nil (lead ++ _), isUndoubled_append nonempty without] at undoubled
    exact ⟨lead, leads.mpr ⟨spelled, undoubled.1⟩, admitted, rfl⟩

/-! ### Other runs of the same kind -/

/-- **That a run of gaps is replaced by another one**, which has a mark just if the first one has.
-/
inductive Respaced : List Char → List Char → Prop
  | replaced {gap other : List Char} (before after : List Char) (nonempty : gap ≠ [])
      (nonempty' : other ≠ []) (gaps : ∀ c ∈ gap, isGap c = true)
      (gaps' : ∀ c ∈ other, isGap c = true) (marked : '>' ∈ gap ↔ '>' ∈ other) :
      Respaced (before ++ gap ++ after) (before ++ other ++ after)

theorem takeWhile_append_of_stops {α : Type} {p : α → Bool} {list : List α}
    (stops : list.dropWhile p ≠ []) (rest : List α) :
    (list ++ rest).takeWhile p = list.takeWhile p := by
  rw [List.takeWhile_append, if_neg]
  intro same
  have parts := congrArg List.length (List.takeWhile_append_dropWhile (p := p) (l := list))
  rw [List.length_append, same] at parts
  exact stops (List.length_eq_zero_iff.mp (by omega))

theorem dropWhile_append_of_stops {α : Type} {p : α → Bool} {list : List α}
    (stops : list.dropWhile p ≠ []) (rest : List α) :
    (list ++ rest).dropWhile p = list.dropWhile p ++ rest := by
  rw [List.dropWhile_append, if_neg (by simpa using stops)]

theorem all_head?_of_gaps (nonempty : gap ≠ []) (gaps : ∀ c ∈ gap, isGap c = true)
    (rest : List Char) : (gap ++ rest).head?.all isGap = true := by
  obtain ⟨c, more, rfl⟩ := List.exists_cons_of_ne_nil nonempty
  exact gaps c List.mem_cons_self

/-- A compound is taken alike whatever is behind the gap at which it ends. -/
theorem takeCompound?_append (starts : rest.head?.all isGap = true) (chars : List Char) :
    takeCompound? (chars ++ rest) =
      (takeCompound? chars).map fun (compound, left) => (compound, left ++ rest) := by
  apply Option.ext
  rintro ⟨compound, after⟩
  rw [takeCompound?_eq_some_iff, Option.map_eq_some_iff]
  constructor
  · rintro ⟨spellable, whole, split, gap⟩
    rcases List.append_eq_append_iff.mp split with ⟨more, inside, same⟩ | ⟨left, same, inside⟩
    · cases more with
      | nil =>
        rw [List.append_nil] at inside
        exact ⟨(compound, []), takeCompound?_eq_some_iff.mpr
          ⟨spellable, whole, by rw [inside, List.append_nil], rfl⟩, by rw [same]; rfl⟩
      | cons c more =>
        -- No compound reaches into the gap.
        have member : c ∈ compoundChars compound := by simp [inside]
        rw [same] at starts
        exact absurd starts
          (Bool.eq_false_iff.mp (isGap_eq_false_of_mem_compoundChars spellable c member))
    · refine ⟨(compound, left), takeCompound?_eq_some_iff.mpr ⟨spellable, whole, same, ?_⟩, ?_⟩
      · cases left with
        | nil => rfl
        | cons c left =>
          rw [inside] at gap
          exact gap
      · rw [inside]
  · rintro ⟨⟨found, left⟩, taken, same⟩
    cases same
    obtain ⟨spellable, whole, rfl, gap⟩ := takeCompound?_eq_some_iff.mp taken
    refine ⟨spellable, whole, List.append_assoc _ _ _, ?_⟩
    cases left with
    | nil => exact starts
    | cons c left => exact gap

/-- **Reading does not tell one run of gaps from another of its kind.** -/
theorem readFrom?_of_respaced {other : List Char} (respaced : Respaced chars other)
    (around : List (Combinator × Compound)) : readFrom? around chars = readFrom? around other := by
  obtain ⟨before, after, nonempty, nonempty', gaps, gaps', marked⟩ := respaced
  rename_i gap other
  induction length : before.length using Nat.strongRecOn generalizing around before with
  | ind length ih =>
    subst length
    rw [List.append_assoc, List.append_assoc, readFrom?_eq, readFrom?_eq,
      takeCompound?_append (all_head?_of_gaps nonempty gaps after),
      takeCompound?_append (all_head?_of_gaps nonempty' gaps' after)]
    cases taken : takeCompound? before with
    | none => rfl
    | some parts =>
      obtain ⟨compound, left⟩ := parts
      simp only [Option.map_some, Option.bind_some]
      by_cases all : ∀ c ∈ left, isGap c = true
      · -- The run goes on behind what is left, and has a mark in it or not.
        have mark : '>' ∈ left ++ (gap ++ after.takeWhile isGap) ↔
            '>' ∈ left ++ (other ++ after.takeWhile isGap) := by
          simp only [List.mem_append, marked]
        rw [List.takeWhile_append_of_pos all, List.takeWhile_append_of_pos gaps,
          List.takeWhile_append_of_pos all, List.takeWhile_append_of_pos gaps',
          List.dropWhile_append_of_pos all, List.dropWhile_append_of_pos gaps,
          List.dropWhile_append_of_pos all, List.dropWhile_append_of_pos gaps']
        simp only [combinatorOf, mark]
      · -- The run ends before, and what is replaced stands behind the next compound.
        have more : left.dropWhile isGap ≠ [] := mt List.dropWhile_eq_nil_iff.mp all
        have goesOn (rest : List Char) : left.dropWhile isGap ++ rest ≠ [] :=
          List.append_ne_nil_of_left_ne_nil more rest
        have shorter : (left.dropWhile isGap).length < before.length := by
          have bound := length_takeCompound?_le taken
          obtain ⟨-, -, -, starts⟩ := takeCompound?_eq_some_iff.mp taken
          cases left with
          | nil => exact absurd rfl more
          | cons c left =>
            have gap : isGap c = true := starts
            rw [List.dropWhile_cons_of_pos gap]
            have least := (List.dropWhile_suffix (l := left) isGap).length_le
            rw [List.length_cons] at bound
            omega
        simp only [takeWhile_append_of_stops more, dropWhile_append_of_stops more,
          if_neg (goesOn _)]
        have again := ih _ shorter ((combinatorOf (left.takeWhile isGap), compound) :: around)
          (left.dropWhile isGap) rfl
        rwa [List.append_assoc, List.append_assoc] at again

/-- **Texts that differ in the runs between compounds** are read as the same selector. -/
theorem parse?_of_respaced {text other : String}
    (respaced : Relation.ReflTransGen Respaced (Text.trimChars text.toList)
      (Text.trimChars other.toList)) : parse? text = parse? other := by
  rw [parse?, parse?]
  generalize Text.trimChars text.toList = chars at respaced ⊢
  generalize Text.trimChars other.toList = others at respaced ⊢
  induction respaced with
  | refl => rfl
  | tail _ step ih =>
    rw [ih, readFrom?_of_respaced step]
    obtain ⟨before, after, nonempty, nonempty', gaps, gaps', -⟩ := step
    cases before with
    | nil =>
      rw [List.nil_append, List.nil_append, all_head?_of_gaps nonempty gaps,
        all_head?_of_gaps nonempty' gaps']
    | cons c before => rfl

/-! ### Texts -/

/-- A mark at the start of a text asks for something in front of it. -/
theorem parse?_of_leading {text : String}
    (leading : (Text.trimChars text.toList).head? = some '>') : parse? text = none := by
  rw [parse?, leading]
  rfl

/-- A mark at the end of a text asks for something behind it. -/
theorem parse?_of_trailing {text : String}
    (trailing : (Text.trimChars text.toList).getLast? = some '>') : parse? text = none := by
  rw [Option.eq_none_iff_forall_ne_some]
  intro selector read
  obtain ⟨lead, -, whole, same⟩ := parse?_eq_some_iff.mp read
  obtain ⟨c, more, split, -⟩ := whole.exists_cons
  have nonempty : compoundChars selector.subject ≠ [] := by
    rw [split]
    exact List.cons_ne_nil c more
  rw [same, List.getLast?_append_of_ne_nil _ nonempty] at trailing
  have solid := isGap_eq_false_of_mem_compoundChars whole.spellable '>'
    (List.mem_of_getLast? trailing)
  cases solid

/-- **Which texts are read as selectors, and as which.**

Blanks at the ends aside, a text is read as the selector that it spells with whole names and with
runs between its compounds, the last one of which is the subject; and it is read as some selector if
it spells one with any names. Texts with single marks are read as what they spell, and no other text
is read unless two marks stand side by side in it, spaces aside. Texts that differ in their runs,
but not in whether there is a mark in them, are read as the same selector, so that spaces around
marks make no difference and neither does the number of marks. Marks at the ends are refused. -/
theorem parse?_grammar (text : String) :
    let chars := Text.trimChars text.toList
    (∀ selector, parse? text = some selector ↔ Spells IsRun IsWholeCompound selector chars) ∧
    ((parse? text).isSome = true ↔ ∃ selector, Spells IsRun IsCompound selector chars) ∧
    (∀ selector, Spells IsCombinator IsWholeCompound selector chars ↔
      parse? text = some selector ∧ IsUndoubled chars) ∧
    ((∃ selector, Spells IsCombinator IsCompound selector chars) ↔
      (parse? text).isSome = true ∧ IsUndoubled chars) ∧
    (∀ other, Relation.ReflTransGen Respaced chars (Text.trimChars other.toList) →
      parse? text = parse? other) ∧
    (chars.head? = some '>' → parse? text = none) ∧
    (chars.getLast? = some '>' → parse? text = none) := by
  intro chars
  have read (selector : Selector) :
      parse? text = some selector ↔ Spells IsRun IsWholeCompound selector chars :=
    parse?_eq_some_iff
  have single (selector : Selector) : Spells IsCombinator IsWholeCompound selector chars ↔
      parse? text = some selector ∧ IsUndoubled chars := by
    rw [spells_isCombinator_iff fun _ whole => whole.toIsCompound, read]
  refine ⟨read, ?_, single, ?_, fun _ => parse?_of_respaced, parse?_of_leading,
    parse?_of_trailing⟩
  · rw [Option.isSome_iff_exists, ← exists_spells_isWholeCompound_iff]
    simp only [read]
  · rw [Option.isSome_iff_exists, ← exists_spells_isWholeCompound_iff]
    simp only [single, exists_and_right]

/-- Two marks are read as one. -/
theorem parse?_doubled :
    parse? "a >> b" = some ⟨[.type "b"], [(.child, [.type "a"])]⟩ ∧
      ¬ ∃ selector, Spells IsCombinator IsCompound selector (Text.trimChars "a >> b".toList) := by
  refine ⟨by decide +kernel, ?_⟩
  rintro ⟨selector, spelled⟩
  exact absurd ((spells_isCombinator_iff fun _ => id).mp spelled).2 (by decide +kernel)

end PagedHtml.Selector
