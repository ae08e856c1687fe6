/-
**Keys stay in the order in which they first come.**

The keys of a list of values by key are distinct when each was put there by `Keyed.insert`, which
adds a key at the end only if it is new (`Keyed.keys_insert`). Then looking a key up agrees with the
entries (`Keyed.mem_entries_iff`).
-/

import PagedHtml.Keyed
import Mathlib.Data.List.Basic

namespace PagedHtml

/-! ### Values in the order in which they first come -/

/-- **The values of a list, each once, in the order in which they first come there.** -/
structure IsFirsts (firsts values : List String) : Prop where
  mem_iff : ∀ value, value ∈ firsts ↔ value ∈ values
  ordered : firsts.Pairwise fun earlier later => values.idxOf earlier < values.idxOf later

theorem idxOf_cons_of_ne {value other : String} (apart : value ≠ other) (values : List String) :
    (value :: values).idxOf other = values.idxOf other + 1 := by
  rw [List.idxOf_cons, beq_eq_false_iff_ne.mpr apart]
  rfl

namespace IsFirsts

variable {firsts values : List String}

theorem nil : IsFirsts [] [] := ⟨fun _ => Iff.rfl, List.Pairwise.nil⟩

theorem nodup (isFirsts : IsFirsts firsts values) : firsts.Nodup := by
  refine isFirsts.ordered.imp fun {earlier later} less same => ?_
  rw [same] at less
  exact Nat.lt_irrefl _ less

/-- One more value is listed at the end if it is new. -/
theorem concat (isFirsts : IsFirsts firsts values) (value : String) :
    IsFirsts (if value ∈ firsts then firsts else firsts ++ [value]) (values ++ [value]) := by
  have kept : firsts.Pairwise fun earlier later =>
      (values ++ [value]).idxOf earlier < (values ++ [value]).idxOf later := by
    refine isFirsts.ordered.imp_of_mem fun {earlier later} first second less => ?_
    rw [List.idxOf_append_of_mem ((isFirsts.mem_iff earlier).mp first),
      List.idxOf_append_of_mem ((isFirsts.mem_iff later).mp second)]
    exact less
  by_cases known : value ∈ firsts
  · rw [if_pos known]
    refine ⟨fun other => ?_, kept⟩
    rw [List.mem_append, List.mem_singleton, isFirsts.mem_iff]
    refine (or_iff_left_of_imp ?_).symm
    rintro rfl
    exact (isFirsts.mem_iff other).mp known
  · rw [if_neg known]
    refine ⟨fun other => ?_, List.pairwise_append.mpr ⟨kept, List.pairwise_singleton _ _, ?_⟩⟩
    · rw [List.mem_append, List.mem_append, isFirsts.mem_iff]
    · intro earlier first later second
      obtain rfl := List.mem_singleton.mp second
      have inside : earlier ∈ values := (isFirsts.mem_iff earlier).mp first
      have new : later ∉ values := fun member => known ((isFirsts.mem_iff later).mpr member)
      rw [List.idxOf_append_of_mem inside, List.idxOf_append_of_notMem new, List.idxOf_cons_self,
        Nat.add_zero]
      exact List.idxOf_lt_length_of_mem inside

end IsFirsts

/-! ### The keys of values by key -/

namespace Keyed

variable {α : Type}

/-- The keys, in their order. -/
def keys (keyed : Keyed α) : List String := keyed.entries.map Prod.fst

/-- **A key that is new comes last**, and one that is known keeps its place. -/
theorem keys_insert (keyed : Keyed α) (key : String) (value : α) :
    (keyed.insert key value).keys =
      if key ∈ keyed.keys then keyed.keys else keyed.keys ++ [key] := by
  obtain ⟨entries⟩ := keyed
  show (insertEntry key value entries).map Prod.fst =
    if key ∈ entries.map Prod.fst then entries.map Prod.fst else entries.map Prod.fst ++ [key]
  induction entries with
  | nil => rfl
  | cons entry rest ih =>
    obtain ⟨other, old⟩ := entry
    rw [insertEntry]
    by_cases same : other = key
    · simp [same]
    · rw [if_neg same, List.map_cons, ih]
      by_cases known : key ∈ rest.map Prod.fst
      · simp only [List.map_cons, List.mem_cons, known, or_true, if_true]
      · simp only [List.map_cons, List.mem_cons, known, or_false, Ne.symm same, if_false,
          List.cons_append]

/-- What is found under a key is what was put there last, or what stood there before. -/
theorem get?_insert_or (keyed : Keyed α) (key other : String) (value : α) :
    (keyed.insert key value).get? other =
      (if other = key then some value else none).or (keyed.get? other) := by
  rw [get?_insert]
  split <;> rfl

/-- **Looking a key up agrees with the entries** where the keys are distinct. -/
theorem mem_entries_iff {keyed : Keyed α} (distinct : keyed.keys.Nodup) {key : String}
    {value : α} : (key, value) ∈ keyed.entries ↔ keyed.get? key = some value := by
  obtain ⟨entries⟩ := keyed
  change (entries.map Prod.fst).Nodup at distinct
  show _ ↔ (entries.find? fun entry => entry.1 == key).map Prod.snd = some value
  induction entries with
  | nil => simp
  | cons entry rest ih =>
    obtain ⟨other, old⟩ := entry
    obtain ⟨new, distinctRest⟩ := List.nodup_cons.mp distinct
    rw [List.mem_cons, List.find?_cons]
    by_cases same : other = key
    · subst same
      have notLater : (other, value) ∉ rest := fun member =>
        new (List.mem_map.mpr ⟨_, member, rfl⟩)
      simp [notLater, eq_comm]
    · have apart : (other == key) = false := beq_eq_false_iff_ne.mpr same
      rw [ih distinctRest, apart]
      refine or_iff_right fun equal => same ?_
      exact (Prod.mk.inj equal).1.symm

end Keyed

end PagedHtml
