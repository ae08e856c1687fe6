/-
**Selectors of a single condition.**

* `parse?_eq_single_iff`: a text is read as the selector of a single condition just if it is this
  condition as it is written, blanks around it aside;
* `mem_matchesIn_single_iff`: such a selector matches the elements that satisfy the condition.
-/

import PagedHtml.Proofs.Content.Shape
import PagedHtml.Proofs.Selector.Grammar
import PagedHtml.Proofs.Selector.Meaning

namespace PagedHtml.Selector

variable {simple : SimpleSelector}

theorem isWholeCompound_single_iff : IsWholeCompound [simple] ↔ simple.IsSpellable := by
  constructor
  · exact fun whole => whole.spellable simple List.mem_cons_self
  · exact fun spellable => ⟨⟨List.cons_ne_nil _ _, List.forall_mem_singleton.mpr spellable⟩,
      List.IsChain.singleton _⟩

/-- **A text is read as a single condition** just if it is this condition as it is written. -/
theorem parse?_eq_single_iff {text : String} :
    parse? text = some ⟨[simple], []⟩ ↔ simple.IsSpellable ∧ Text.trim text = simple.text := by
  have alone : compoundChars [simple] = simple.text.toList := List.append_nil _
  rw [parse?_eq_some_iff, Text.trim, String.ofList_eq]
  constructor
  · rintro ⟨lead, spelled, whole, same⟩
    cases spelled
    exact ⟨isWholeCompound_single_iff.mp whole, same.trans alone⟩
  · rintro ⟨spellable, same⟩
    exact ⟨[], .nil, isWholeCompound_single_iff.mpr spellable, same.trans alone.symm⟩

/-- **A single condition matches the elements that satisfy it.** -/
theorem mem_matchesIn_single_iff (content : Content) (id : Nat) :
    id ∈ matchesIn ⟨[simple], []⟩ content.outline ↔
      ∃ data, content.outline.element? id = some data ∧ satisfies data simple = true := by
  rw [mem_matchesIn_iff (Content.isTree_outline content), MeansNearest, SatisfiedAt]
  simp [MeansNearestAround, satisfiesAll]

end PagedHtml.Selector
