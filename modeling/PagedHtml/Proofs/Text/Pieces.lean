/-
**The pieces of a text, and text without blanks at its ends.**

* `pieces_eq_iff`: the pieces of a list are what stands between the occurrences of one element;
* `divideAt?_append`: a list is divided at the first occurrence of one element;
* `trimChars_eq_self_iff`: trimming changes just what has a blank at an end (`IsTrimmed`), and what
  is trimmed has none.
-/

import PagedHtml.Text.Ascii
import PagedHtml.Text.Blank
import Mathlib.Data.List.Basic

namespace PagedHtml.Text

/-! ### Pieces -/

section

variable {α : Type} {p : α → Bool} {a : α}

theorem pieces_of_notMem (only : ∀ b, p b = true ↔ b = a) {part : List α} (without : a ∉ part) :
    pieces p part = [part] := by
  induction part with
  | nil => rfl
  | cons b part ih =>
    rw [List.mem_cons, not_or] at without
    have other : ¬ p b = true := fun same => without.1 ((only b).mp same).symm
    rw [pieces, if_neg other, ih without.2]

/-- A list has the pieces of what stands before an occurrence, and then those of what follows. -/
theorem pieces_append_mark (only : ∀ b, p b = true ↔ b = a) (front rest : List α) :
    pieces p (front ++ a :: rest) = pieces p front ++ pieces p rest := by
  induction front with
  | nil => exact if_pos ((only a).mpr rfl)
  | cons b front ih =>
    rw [List.cons_append, pieces, pieces]
    split
    · rw [ih, List.cons_append]
    · rw [ih]
      cases first : pieces p front with
      | nil => exact absurd first (pieces_ne_nil p front)
      | cons part others => rfl

theorem pieces_append (only : ∀ b, p b = true ↔ b = a) {part rest : List α} (without : a ∉ part) :
    pieces p (part ++ a :: rest) = part :: pieces p rest := by
  rw [pieces_append_mark only, pieces_of_notMem only without, List.singleton_append]

/-- **The pieces of a list are what stands between the occurrences of an element.** -/
theorem pieces_eq_iff (only : ∀ b, p b = true ↔ b = a) {list : List α} {parts : List (List α)} :
    pieces p list = parts ↔
      parts ≠ [] ∧ (∀ part ∈ parts, a ∉ part) ∧ [a].intercalate parts = list := by
  constructor
  · rintro rfl
    refine ⟨pieces_ne_nil p list, ?_⟩
    induction list with
    | nil => simp [pieces]
    | cons b rest ih =>
      obtain ⟨without, joined⟩ := ih
      by_cases same : p b = true
      · rw [pieces, if_pos same, List.intercalate_cons_of_ne_nil (pieces_ne_nil p rest),
          joined, (only b).mp same]
        exact ⟨List.forall_mem_cons.mpr ⟨List.not_mem_nil, without⟩, rfl⟩
      · rw [pieces, if_neg same]
        cases first : pieces p rest with
        | nil => exact absurd first (pieces_ne_nil p rest)
        | cons part others =>
          rw [first] at without joined
          obtain ⟨here, later⟩ := List.forall_mem_cons.mp without
          refine ⟨List.forall_mem_cons.mpr ⟨?_, later⟩, ?_⟩
          · rw [List.mem_cons, not_or]
            exact ⟨fun equal => same ((only b).mpr equal.symm), here⟩
          · rw [List.intercalate_cons_cons_left, joined]
  · rintro ⟨nonempty, without, rfl⟩
    induction parts with
    | nil => exact absurd rfl nonempty
    | cons part others ih =>
      obtain ⟨here, later⟩ := List.forall_mem_cons.mp without
      cases others with
      | nil => rw [List.intercalate_singleton, pieces_of_notMem only here]
      | cons next others =>
        rw [List.intercalate_cons_cons, List.append_assoc]
        exact (pieces_append only here).trans
          (congrArg (part :: ·) (ih (List.cons_ne_nil _ _) later))

end

theorem mem_of_mem_intercalate {α : Type} {a : α} {between : List α} {parts : List (List α)}
    (member : a ∈ between.intercalate parts) : a ∈ between ∨ ∃ part ∈ parts, a ∈ part := by
  induction parts with
  | nil => cases member
  | cons part others ih =>
    cases others with
    | nil =>
      rw [List.intercalate_singleton] at member
      exact .inr ⟨part, List.mem_cons_self, member⟩
    | cons next others =>
      rw [List.intercalate_cons_cons, List.append_assoc, List.mem_append, List.mem_append] at member
      rcases member with here | separator | later
      · exact .inr ⟨part, List.mem_cons_self, here⟩
      · exact .inl separator
      · refine (ih later).imp_right ?_
        rintro ⟨other, listed, inside⟩
        exact ⟨other, List.mem_cons_of_mem _ listed, inside⟩

/-- What is in a piece is in the list. -/
theorem mem_of_mem_pieces {α : Type} {p : α → Bool} {b : α} {list part : List α}
    (listed : part ∈ pieces p list) (member : b ∈ part) : b ∈ list := by
  induction list generalizing part with
  | nil =>
    obtain rfl : part = [] := by simpa [pieces] using listed
    cases member
  | cons c rest ih =>
    rw [pieces] at listed
    split at listed
    · rcases List.mem_cons.mp listed with rfl | later
      · cases member
      · exact List.mem_cons_of_mem _ (ih later member)
    · split at listed
      · obtain rfl : part = [c] := by simpa using listed
        exact List.mem_cons.mpr (.inl (List.mem_singleton.mp member))
      · next first others divided =>
        rw [divided] at ih
        rcases List.mem_cons.mp listed with rfl | later
        · rcases List.mem_cons.mp member with rfl | inside
          · exact List.mem_cons_self
          · exact List.mem_cons_of_mem _ (ih List.mem_cons_self inside)
        · exact List.mem_cons_of_mem _ (ih (List.mem_cons_of_mem _ later) member)

/-! ### Dividing at a character -/

theorem divideAt?_append {α : Type} [BEq α] [LawfulBEq α] {mark : α} {before : List α}
    (without : mark ∉ before) (after : List α) :
    divideAt? (· == mark) (before ++ mark :: after) = some (before, after) := by
  induction before with
  | nil => simp [divideAt?]
  | cons a before ih =>
    rw [List.mem_cons, not_or] at without
    have other : ¬ (a == mark) = true := fun same => without.1 (eq_of_beq same).symm
    rw [List.cons_append, divideAt?, if_neg other, ih without.2]
    rfl

theorem divideAt?_eq_none {α : Type} {p : α → Bool} {list : List α}
    (without : ∀ a ∈ list, p a = false) : divideAt? p list = none := by
  induction list with
  | nil => rfl
  | cons a rest ih =>
    obtain ⟨here, later⟩ := List.forall_mem_cons.mp without
    rw [divideAt?, if_neg (by simp [here]), ih later]
    rfl

/-- What stands before the first dividing element does not divide. -/
theorem notMem_of_divideAt? {α : Type} [BEq α] [LawfulBEq α] {mark : α}
    {list before after : List α} (divided : divideAt? (· == mark) list = some (before, after)) :
    mark ∉ before := by
  induction list generalizing before with
  | nil => cases divided
  | cons a rest ih =>
    rw [divideAt?] at divided
    split at divided
    · cases divided
      exact List.not_mem_nil
    · next other =>
      obtain ⟨⟨first, second⟩, found, equal⟩ := Option.map_eq_some_iff.mp divided
      cases equal
      rw [List.mem_cons, not_or]
      exact ⟨fun same => other (by simp [same]), ih found⟩

/-! ### Trimming -/

theorem isBlank_of_isSpace {c : Char} (space : isSpace c = true) : isBlank c = true := by
  simp only [isSpace, Bool.or_eq_true, beq_iff_eq] at space
  rcases space with (((rfl | rfl) | rfl) | rfl) | rfl <;> decide

/-- That there is no blank at either end. -/
def IsTrimmed (chars : List Char) : Prop :=
  (∀ c ∈ chars.head?, isBlank c = false) ∧ ∀ c ∈ chars.getLast?, isBlank c = false

/-- What has no blank has none at its ends. -/
theorem isTrimmed_of_visible {chars : List Char} (visible : ∀ c ∈ chars, isBlank c = false) :
    IsTrimmed chars :=
  ⟨fun c first => visible c (List.mem_of_mem_head? first),
    fun c last => visible c (List.mem_of_getLast? last)⟩

theorem dropWhile_isBlank_eq_self {chars : List Char}
    (first : ∀ c ∈ chars.head?, isBlank c = false) :
    chars.dropWhile isBlank = chars := by
  cases chars with
  | nil => rfl
  | cons c rest => exact List.dropWhile_cons_of_neg (by simp [first c rfl])

theorem trimChars_of_isTrimmed {chars : List Char} (trimmed : IsTrimmed chars) :
    trimChars chars = chars := by
  have last : ∀ c ∈ chars.reverse.head?, isBlank c = false := by
    rw [List.head?_reverse]
    exact trimmed.2
  rw [trimChars, dropWhileEnd, dropWhile_isBlank_eq_self trimmed.1, dropWhile_isBlank_eq_self last,
    List.reverse_reverse]

theorem head?_dropWhile_isBlank (chars : List Char) :
    ∀ c ∈ (chars.dropWhile isBlank).head?, isBlank c = false := by
  intro c first
  have visible := List.head?_dropWhile_not isBlank chars
  rw [Option.mem_def] at first
  rw [first] at visible
  exact visible

theorem isTrimmed_trimChars (chars : List Char) : IsTrimmed (trimChars chars) := by
  rw [trimChars, dropWhileEnd]
  generalize rest_eq : chars.dropWhile isBlank = rest
  have starts : ∀ c ∈ rest.head?, isBlank c = false := rest_eq ▸ head?_dropWhile_isBlank chars
  constructor
  · intro c first
    have front : (rest.reverse.dropWhile isBlank).reverse <+: rest := by
      rw [← List.reverse_suffix, List.reverse_reverse]
      exact List.dropWhile_suffix isBlank
    obtain ⟨more, split⟩ := front
    refine starts c ?_
    rw [← split, List.head?_append, first]
    rfl
  · intro c last
    rw [List.getLast?_reverse] at last
    exact head?_dropWhile_isBlank rest.reverse c last

/-- **Trimming leaves just what has no blank at its ends.** -/
theorem trimChars_eq_self_iff {chars : List Char} : trimChars chars = chars ↔ IsTrimmed chars :=
  ⟨fun same => same ▸ isTrimmed_trimChars chars, trimChars_of_isTrimmed⟩

/-- What is left by trimming was there. -/
theorem mem_of_mem_trimChars {c : Char} {chars : List Char} (member : c ∈ trimChars chars) :
    c ∈ chars := by
  rw [trimChars, dropWhileEnd, List.mem_reverse] at member
  have inside := List.mem_reverse.mp ((List.dropWhile_suffix isBlank).mem member)
  exact (List.dropWhile_suffix isBlank).mem inside

/-- A blank in front is trimmed away. -/
theorem trimChars_cons_of_isBlank {c : Char} (blank : isBlank c = true) (chars : List Char) :
    trimChars (c :: chars) = trimChars chars := by
  rw [trimChars, List.dropWhile_cons_of_pos blank]
  rfl

/-- A blank at the end is trimmed away. -/
theorem trimChars_append_of_isBlank {c : Char} (blank : isBlank c = true) (chars : List Char) :
    trimChars (chars ++ [c]) = trimChars chars := by
  rw [trimChars, trimChars, List.dropWhile_append]
  split
  · next nothing =>
    rw [List.isEmpty_iff] at nothing
    rw [nothing, List.dropWhile_cons_of_pos blank]
    rfl
  · rw [dropWhileEnd, List.reverse_append, List.reverse_singleton, List.singleton_append,
      List.dropWhile_cons_of_pos blank]
    rfl

end PagedHtml.Text
