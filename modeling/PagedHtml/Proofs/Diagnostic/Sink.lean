/-
**A terminal shows each record of a log once.**

A terminal knows the lines that it has shown. Its lines tell diagnostics apart just as the records
of a log do (`line_eq_iff`), and whatever diagnostics come one after another, the ones that are
written are the first ones with their lines (`emitAll_fst`).

* `emit_of_mem`, `emit_of_not_mem`: one diagnostic;
* `mem_shown_emitAll`: by induction, what a terminal has shown after some diagnostics;
* `emitAll_again`: what was shown is not shown again.
-/

import PagedHtml.Diagnostic.Sink

namespace PagedHtml.Terminal

/-! ### Lines and records -/

/-- **Diagnostics with the same line** are those with the same record. -/
theorem line_eq_iff {first second : Diagnostic} :
    line first = line second ↔ first.logRecord = second.logRecord := by
  rw [Diagnostic.logRecord, Diagnostic.logRecord, LogRecord.mk.injEq, ← String.toList_inj,
    line, line]
  -- no label is the beginning of another one with its bracket
  cases first.kind <;> cases second.kind <;> simp [Diagnostic.Kind.label, String.toList_inj]

/-! ### One diagnostic -/

variable {terminal : Terminal} {diagnostic : Diagnostic}

theorem emit_of_mem (known : line diagnostic ∈ terminal.shown) :
    terminal.emit diagnostic = ("", terminal) :=
  if_pos (List.contains_iff_mem.mpr known)

theorem emit_of_not_mem (unknown : line diagnostic ∉ terminal.shown) :
    terminal.emit diagnostic =
      (notice (line diagnostic), ⟨line diagnostic :: terminal.shown⟩) :=
  if_neg fun listed => unknown (List.contains_iff_mem.mp listed)

/-! ### A run of diagnostics -/

theorem emitAll_cons (first : Diagnostic) (rest : List Diagnostic) :
    terminal.emitAll (first :: rest) =
      ((terminal.emit first).1 ++ ((terminal.emit first).2.emitAll rest).1,
        ((terminal.emit first).2.emitAll rest).2) := rfl

/-- **After some diagnostics a terminal has shown their lines**, and those from before. -/
theorem mem_shown_emitAll (diagnostics : List Diagnostic) (text : String) :
    text ∈ (terminal.emitAll diagnostics).2.shown ↔
      text ∈ terminal.shown ∨ text ∈ diagnostics.map line := by
  induction diagnostics generalizing terminal with
  | nil => simp [emitAll]
  | cons first rest ih =>
    rw [emitAll_cons, ih, List.map_cons, List.mem_cons]
    by_cases known : line first ∈ terminal.shown
    · rw [emit_of_mem known]
      grind
    · rw [emit_of_not_mem known, List.mem_cons]
      grind

/-- **What is written for some diagnostics** is a notice of each line that was not shown before, in
the order in which they first come. -/
theorem emitAll_fst (diagnostics : List Diagnostic) :
    (terminal.emitAll diagnostics).1 = String.join
      (((diagnostics.map line).filter (· ∉ terminal.shown)).eraseDups.map notice) := by
  induction diagnostics generalizing terminal with
  | nil => rfl
  | cons first rest ih =>
    rw [emitAll_cons, ih, List.map_cons]
    by_cases known : line first ∈ terminal.shown
    · rw [emit_of_mem known, List.filter_cons_of_neg (by simpa using known), String.empty_append]
    · have unseen : (rest.map line).filter (· ∉ line first :: terminal.shown) =
          ((rest.map line).filter (· ∉ terminal.shown)).filter fun text => !text == line first := by
        rw [List.filter_filter]
        refine List.filter_congr fun text _ => ?_
        by_cases same : text = line first <;> simp [same]
      rw [emit_of_not_mem known, List.filter_cons_of_pos (by simpa using known),
        List.eraseDups_cons, List.map_cons, String.join_cons, unseen]

/-- **What was shown is not shown again.** -/
theorem emitAll_again (diagnostics : List Diagnostic) :
    ((terminal.emitAll diagnostics).2.emitAll diagnostics).1 = "" := by
  rw [emitAll_fst, List.filter_eq_nil_iff.mpr]
  · rfl
  · intro text member
    simpa using (mem_shown_emitAll diagnostics text).mpr (.inr member)

end PagedHtml.Terminal
