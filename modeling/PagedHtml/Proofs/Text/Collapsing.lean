/-
**Collapsed text: what becomes of the gaps of a text.**

The gaps of a text are its runs of blanks, perhaps empty, before, between and behind the visible
characters (`gaps`). Collapsing keeps the visible characters, and makes one space of every gap that
is not empty.

* `isBlank_iff_mem_whiteSpace`: the blanks are the characters with the property White_Space;
* `gaps_collapseFrom`: the gaps of what is collapsed, in or out of a run;
* `collapseChars_eq_self_iff`: collapsing changes just what has another blank than a space, or two
  blanks side by side (`IsCollapsed`), and what is collapsed has none;
* `collapseFrom_append`: a text in two parts, the second of which goes on with a run of the first;
* `collapse_gaps`: the laws of collapsing, of which the last is that the parts of a text may be
  collapsed before the whole.
-/

import PagedHtml.Text.Ascii
import PagedHtml.Text.Blank
import Mathlib.Data.List.Chain

namespace PagedHtml.Text

/-! ### White space -/

/-- The characters with the property White_Space, as the Unicode character database lists them. -/
def whiteSpace : List Char :=
  ['\u0009', '\u000A', '\u000B', '\u000C', '\u000D', '\u0020', '\u0085', '\u00A0', '\u1680',
   '\u2000', '\u2001', '\u2002', '\u2003', '\u2004', '\u2005', '\u2006', '\u2007', '\u2008',
   '\u2009', '\u200A', '\u2028', '\u2029', '\u202F', '\u205F', '\u3000']

theorem isBlank_iff_mem_whiteSpace {c : Char} : isBlank c = true ↔ c ∈ whiteSpace := by
  have listed : c ∈ whiteSpace ↔ c.toNat ∈ whiteSpace.map Char.toNat :=
    (List.mem_map_of_injective fun _ _ => Char.toNat_inj.mp).symm
  rw [listed]
  simp only [isBlank, whiteSpace, List.map_cons, List.map_nil, Char.reduceToNat, List.mem_cons,
    List.not_mem_nil, Bool.or_eq_true, Bool.and_eq_true, beq_iff_eq, decide_eq_true_eq, or_false]
  constructor
  · omega
  · omega

/-! ### Visible characters -/

/-- The characters of a text that are not blank. -/
def visible (text : String) : List Char := text.toList.filter fun c => !isBlank c

@[simp] theorem visible_append (first second : String) :
    visible (first ++ second) = visible first ++ visible second := by
  rw [visible, String.toList_append, List.filter_append]
  rfl

theorem isBlankText_iff {text : String} : isBlankText text = true ↔ visible text = [] := by
  rw [isBlankText, visible, List.all_eq_true, List.filter_eq_nil_iff]
  simp

theorem toList_collapse (text : String) : (collapse text).toList = collapseChars text.toList :=
  String.toList_ofList

theorem visible_collapse (text : String) : visible (collapse text) = visible text := by
  rw [visible, toList_collapse, filter_collapseChars]
  rfl

/-- **Collapsing makes no text blank and no blank text visible.** -/
theorem isBlankText_collapse (text : String) : isBlankText (collapse text) = isBlankText text := by
  rw [Bool.eq_iff_iff, isBlankText_iff, isBlankText_iff, visible_collapse]

/-! ### Gaps -/

/-- The runs of blanks, perhaps empty, before, between and behind the visible characters. -/
def gaps (chars : List Char) : List (List Char) := pieces (fun c => !isBlank c) chars

/-- What becomes of a gap: one space, unless it is empty. -/
def oneSpace : List Char → List Char
  | [] => []
  | _ :: _ => [' ']

theorem exists_gaps (chars : List Char) : ∃ gap others, gaps chars = gap :: others :=
  List.exists_cons_of_ne_nil (pieces_ne_nil _ chars)

theorem gaps_cons_of_visible {c : Char} (seen : isBlank c = false) (rest : List Char) :
    gaps (c :: rest) = [] :: gaps rest := by
  rw [gaps, pieces, if_pos (by simp [seen])]
  rfl

theorem gaps_cons_of_blank {c : Char} (blank : isBlank c = true) {rest gap : List Char}
    {others : List (List Char)} (divided : gaps rest = gap :: others) :
    gaps (c :: rest) = (c :: gap) :: others := by
  rw [gaps] at divided
  rw [gaps, pieces, if_neg (by simp [blank]), divided]

/-- **Every gap becomes one space, and an empty one stays empty.** Of the first gap nothing is left
in a run, whose space is already written. -/
theorem gaps_collapseFrom (inRun : Bool) {chars gap : List Char} {others : List (List Char)}
    (divided : gaps chars = gap :: others) :
    gaps (collapseFrom inRun chars) =
      (if inRun then [] else oneSpace gap) :: others.map oneSpace := by
  induction chars generalizing inRun gap others with
  | nil =>
    cases divided
    cases inRun <;> rfl
  | cons c rest ih =>
    obtain ⟨next, behind, later⟩ := exists_gaps rest
    by_cases blank : isBlank c = true
    · rw [gaps_cons_of_blank blank later] at divided
      obtain ⟨rfl, rfl⟩ := List.cons.inj divided
      -- The blank belongs to the first gap, of which nothing more is written behind it.
      have goesOn := ih true later
      rw [collapseFrom, if_pos blank]
      cases inRun with
      | true => exact goesOn
      | false => exact gaps_cons_of_blank isBlank_space goesOn
    · rw [Bool.not_eq_true] at blank
      rw [gaps_cons_of_visible blank] at divided
      obtain ⟨rfl, rfl⟩ := List.cons.inj divided
      rw [collapseFrom, if_neg (by simp [blank]), gaps_cons_of_visible blank, ih false later, later]
      cases inRun <;> rfl

theorem gaps_collapseChars (chars : List Char) :
    gaps (collapseChars chars) = (gaps chars).map oneSpace := by
  obtain ⟨gap, others, divided⟩ := exists_gaps chars
  rw [collapseChars, gaps_collapseFrom false divided, divided]
  rfl

/-! ### Text that is collapsed already -/

/-- That the blanks are spaces, no two of them side by side. -/
structure IsCollapsed (chars : List Char) : Prop where
  space : ∀ c ∈ chars, isBlank c = true → c = ' '
  single : chars.IsChain fun c d => ¬ (isBlank c = true ∧ isBlank d = true)

/-- That the first character, if there is one, is visible. -/
def StartsVisible (chars : List Char) : Prop := ∀ c ∈ chars.head?, isBlank c = false

theorem isCollapsed_cons_iff {c : Char} {rest : List Char} :
    IsCollapsed (c :: rest) ↔
      (isBlank c = true → c = ' ' ∧ StartsVisible rest) ∧ IsCollapsed rest := by
  constructor
  · rintro ⟨space, single⟩
    obtain ⟨here, later⟩ := List.forall_mem_cons.mp space
    rw [List.isChain_cons] at single
    refine ⟨fun blank => ⟨here blank, fun d first => ?_⟩, later, single.2⟩
    exact Bool.eq_false_iff.mpr fun also => single.1 d first ⟨blank, also⟩
  · rintro ⟨first, space, single⟩
    refine ⟨List.forall_mem_cons.mpr ⟨fun blank => (first blank).1, space⟩,
      List.isChain_cons.mpr ⟨?_, single⟩⟩
    rintro d next ⟨blank, also⟩
    rw [(first blank).2 d next] at also
    cases also

/-- What has no blank is collapsed. -/
theorem isCollapsed_of_visible {chars : List Char} (seen : ∀ c ∈ chars, isBlank c = false) :
    IsCollapsed chars := by
  induction chars with
  | nil => exact ⟨nofun, .nil⟩
  | cons c rest ih =>
    obtain ⟨here, later⟩ := List.forall_mem_cons.mp seen
    exact isCollapsed_cons_iff.mpr ⟨fun blank => by simp [here] at blank, ih later⟩

theorem startsVisible_collapseFrom_true (chars : List Char) :
    StartsVisible (collapseFrom true chars) := by
  induction chars with
  | nil => exact nofun
  | cons c rest ih =>
    rw [collapseFrom]
    split
    · exact ih
    · next seen =>
      rintro d ⟨⟩
      exact Bool.eq_false_iff.mpr seen

/-- **What is collapsed has single spaces alone**, in or out of a run. -/
theorem isCollapsed_collapseFrom (inRun : Bool) (chars : List Char) :
    IsCollapsed (collapseFrom inRun chars) := by
  induction chars generalizing inRun with
  | nil => exact ⟨nofun, .nil⟩
  | cons c rest ih =>
    rw [collapseFrom]
    split
    · cases inRun with
      | true => exact ih true
      | false =>
        exact isCollapsed_cons_iff.mpr
          ⟨fun _ => ⟨rfl, startsVisible_collapseFrom_true rest⟩, ih true⟩
    · next seen => exact isCollapsed_cons_iff.mpr ⟨fun blank => absurd blank seen, ih false⟩

/-- Nothing changes of what is collapsed, if it does not go on with a run. -/
theorem collapseFrom_of_isCollapsed {inRun : Bool} {chars : List Char}
    (collapsed : IsCollapsed chars) (starts : inRun = true → StartsVisible chars) :
    collapseFrom inRun chars = chars := by
  induction chars generalizing inRun with
  | nil => rfl
  | cons c rest ih =>
    obtain ⟨first, later⟩ := isCollapsed_cons_iff.mp collapsed
    by_cases blank : isBlank c = true
    · obtain ⟨rfl, seen⟩ := first blank
      cases inRun with
      | true => exact absurd blank (Bool.eq_false_iff.mp (starts rfl ' ' rfl))
      | false =>
        show ' ' :: collapseFrom true rest = ' ' :: rest
        rw [ih later fun _ => seen]
    · have same : collapseFrom false rest = rest := ih later nofun
      rw [collapseFrom, if_neg blank, same]

/-- **Collapsing leaves just what has single spaces alone.** -/
theorem collapseChars_eq_self_iff {chars : List Char} :
    collapseChars chars = chars ↔ IsCollapsed chars :=
  ⟨fun same => same ▸ isCollapsed_collapseFrom false chars,
    fun collapsed => collapseFrom_of_isCollapsed collapsed nofun⟩

/-! ### A text in two parts -/

/-- Whether a run's space is already written behind some characters, if it is before them as
`inRun` tells. -/
def endsInRun (inRun : Bool) (chars : List Char) : Bool :=
  chars.foldl (fun _ c => isBlank c) inRun

/-- **The second part goes on with the run in which the first part ends.** -/
theorem collapseFrom_append (inRun : Bool) (front rest : List Char) :
    collapseFrom inRun (front ++ rest) =
      collapseFrom inRun front ++ collapseFrom (endsInRun inRun front) rest := by
  induction front generalizing inRun with
  | nil => rfl
  | cons c front ih =>
    rw [List.cons_append, collapseFrom, collapseFrom, endsInRun, List.foldl_cons, ← endsInRun]
    split
    · next blank =>
      rw [ih, blank]
      split
      · rfl
      · rfl
    · next seen => rw [ih, Bool.eq_false_iff.mpr seen, List.cons_append]

/-- A first part may be collapsed before the whole, in no run but one that the whole is in. -/
theorem collapseFrom_collapseFrom_append {inner outer : Bool}
    (within : inner = true → outer = true) (front rest : List Char) :
    collapseFrom outer (collapseFrom inner front ++ rest) = collapseFrom outer (front ++ rest) := by
  induction front generalizing inner outer with
  | nil => rfl
  | cons c front ih =>
    rw [List.cons_append, collapseFrom, collapseFrom]
    -- Behind a blank both are in a run, so `within` holds again there. Without it the first part
    -- could lack a space that the whole has still to write.
    by_cases blank : isBlank c = true
    · rw [if_pos blank, if_pos blank]
      cases inner with
      | true => rw [within rfl, if_pos rfl, if_pos rfl, ih fun _ => rfl]
      | false =>
        rw [if_neg Bool.false_ne_true, List.cons_append, collapseFrom, if_pos isBlank_space,
          ih fun _ => rfl]
    · rw [if_neg blank, if_neg blank, List.cons_append, collapseFrom, if_neg blank, ih id]

/-- A second part may be collapsed before the whole. -/
theorem collapseFrom_append_collapseChars (inRun : Bool) (front rest : List Char) :
    collapseFrom inRun (front ++ collapseChars rest) = collapseFrom inRun (front ++ rest) := by
  have within : false = true → endsInRun inRun front = true := nofun
  have again := collapseFrom_collapseFrom_append within rest []
  rw [List.append_nil, List.append_nil] at again
  rw [collapseFrom_append, collapseChars, again, ← collapseFrom_append]

/-- **The parts of a text may be collapsed before the whole.** -/
theorem collapse_append_collapse (first second : String) :
    collapse (collapse first ++ collapse second) = collapse (first ++ second) := by
  rw [← String.toList_inj, toList_collapse, toList_collapse, String.toList_append,
    String.toList_append, toList_collapse, toList_collapse]
  calc collapseFrom false (collapseChars first.toList ++ collapseChars second.toList)
      = collapseFrom false (collapseFrom false first.toList ++ second.toList) :=
        collapseFrom_append_collapseChars false _ _
    _ = collapseFrom false (first.toList ++ second.toList) :=
        collapseFrom_collapseFrom_append id _ _

/-! ### The laws of collapsing -/

/-- **The laws of collapsing.** For texts with White_Space as their blanks: the visible characters
stay, in order; the only blanks left are spaces, no two of them side by side; the gaps before,
between and behind the visible characters are one space each, where there was a run of blanks, and
empty where there was none; collapsing a second time changes nothing; and the parts of a text may be
collapsed before the whole. -/
theorem collapse_gaps (first second : String) :
    (∀ c : Char, isBlank c = true ↔ c ∈ whiteSpace) ∧
      visible (collapse first) = visible first ∧
      IsCollapsed (collapse first).toList ∧
      gaps (collapse first).toList = (gaps first.toList).map oneSpace ∧
      collapse (collapse first) = collapse first ∧
      collapse (first ++ second) = collapse (collapse first ++ collapse second) := by
  have collapsed : IsCollapsed (collapse first).toList :=
    toList_collapse first ▸ isCollapsed_collapseFrom false first.toList
  refine ⟨fun c => isBlank_iff_mem_whiteSpace, visible_collapse first, collapsed, ?_, ?_,
    (collapse_append_collapse first second).symm⟩
  · rw [toList_collapse, gaps_collapseChars]
  · rw [collapse, collapseChars_eq_self_iff.mpr collapsed, String.ofList_toList]

/-- Runs at both ends and in the middle, of different blanks. -/
example : collapse "  a \n\t b  " = " a b " := by decide

end PagedHtml.Text
