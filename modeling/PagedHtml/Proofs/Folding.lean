/-
**Folds over a list in which the last one counts.**

Where each element of a list either sets something of a state or leaves it, what is seen in the end
is what the last element that sets it has set it to (`observe_foldl`). Searching from the end finds
this element (`findSome?_reverse_eq_some_iff`).
-/

import Mathlib.Data.List.Basic
import PagedHtml.Diagnostic

namespace PagedHtml

variable {α β σ : Type}

/-- **What is observed of a state is what was set last**, or what it was if nothing has set it. -/
theorem observe_foldl (observe : σ → Option β) {step : σ → α → σ} {sets : α → Option β}
    (each : ∀ state a, observe (step state a) = (sets a).or (observe state)) (list : List α)
    (state : σ) :
    observe (list.foldl step state) = (list.reverse.findSome? sets).or (observe state) := by
  induction list generalizing state with
  | nil => rfl
  | cons a rest ih =>
    rw [List.foldl_cons, ih, each, List.reverse_cons, List.findSome?_append, Option.or_assoc,
      List.findSome?_singleton]

/-- What is found first from the end is found at an element behind which there is nothing to find.
-/
theorem findSome?_reverse_eq_some_iff {find : α → Option β} {list : List α} {b : β} :
    list.reverse.findSome? find = some b ↔
      ∃ before last after, list = before ++ last :: after ∧ find last = some b ∧
        ∀ a ∈ after, find a = none := by
  rw [List.findSome?_eq_some_iff]
  constructor
  · rintro ⟨after, last, before, split, found, rest⟩
    refine ⟨before.reverse, last, after.reverse, ?_, found, fun a member => ?_⟩
    · rw [← List.reverse_inj, split]
      simp
    · exact rest a (List.mem_reverse.mp member)
  · rintro ⟨before, last, after, rfl, found, rest⟩
    refine ⟨after.reverse, last, before.reverse, by simp, found, fun a member => ?_⟩
    exact rest a (List.mem_reverse.mp member)

/-- What is found only at one element is found just if the list has it. -/
theorem findSome?_ite_eq [DecidableEq α] (a : α) (found : Option β) (list : List α) :
    (list.findSome? fun other => if a = other then found else none) =
      if a ∈ list then found else none := by
  induction list with
  | nil => rfl
  | cons first rest ih =>
    rw [List.findSome?_cons, ih]
    by_cases same : a = first
    · cases found <;> simp [same]
    · simp [same]

namespace Reported

theorem value_foldlM (step : σ → α → Reported σ) (list : List α) (state : σ) :
    (list.foldlM step state).value = list.foldl (fun state a => (step state a).value) state := by
  induction list generalizing state with
  | nil => rfl
  | cons a rest ih => rw [List.foldlM_cons, value_bind, ih, List.foldl_cons]

/-- Where the reports of a step do not depend on the state, they follow each other. -/
theorem diagnostics_foldlM {step : σ → α → Reported σ} {reports : α → List Diagnostic}
    (each : ∀ state a, (step state a).diagnostics = reports a) (list : List α) (state : σ) :
    (list.foldlM step state).diagnostics = list.flatMap reports := by
  induction list generalizing state with
  | nil => rfl
  | cons a rest ih => rw [List.foldlM_cons, diagnostics_bind, each, ih, List.flatMap_cons]

theorem value_mapM (step : α → Reported β) (list : List α) :
    (list.mapM step).value = list.map fun a => (step a).value := by
  induction list with
  | nil => rfl
  | cons a rest ih =>
    rw [List.mapM_cons, value_bind, value_bind, ih]
    rfl

theorem diagnostics_mapM (step : α → Reported β) (list : List α) :
    (list.mapM step).diagnostics = list.flatMap fun a => (step a).diagnostics := by
  induction list with
  | nil => rfl
  | cons a rest ih =>
    rw [List.mapM_cons, diagnostics_bind, diagnostics_bind, ih, List.flatMap_cons]
    exact congrArg (_ ++ ·) (List.append_nil _)

end Reported

end PagedHtml
