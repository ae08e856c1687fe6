/-
**The outline of a document lists its unfolding in pre-order.**

Where no node is inside of itself, building a content comes to an end, and what it comes to is the
one content that the node unfolds to. Filling an outline in one pass over the document gives the
texts and elements of this content in pre-order, a node with several places at each of them.

`AcyclicFrom.outline_numbers_unfolding` is the whole of it, with the shape that the numbers have.
-/

import PagedHtml.Proofs.Content.Filling
import PagedHtml.Proofs.Content.Shape
import PagedHtml.Proofs.Content.Unfolding

namespace PagedHtml.Document

variable {document : Document}

/-- **An outline numbers the unfolding of a node in pre-order**, when no node from there on is
inside of itself. -/
theorem AcyclicFrom.outline_numbers_unfolding {root : Nat} (acyclic : document.AcyclicFrom root)
    (computed : Option ComputedStyle) :
    (Content.ofDocument document computed root).outcome ≠ .error .endless ∧
    (Outline.fill document computed (document.size + 1) none root).run #[] =
      (fun content => (Outline.root, content.outline.entries)) <$>
        Content.ofDocument document computed root ∧
    ∀ content, (Content.ofDocument document computed root).outcome = .ok content →
      (∀ other, document.Unfolds computed root other ↔ other = content) ∧
      content.outline.entries.toList.map some = content.places.map content.entryAt? ∧
      content.outline.IsTree := by
  refine ⟨ofDocument_ne_endless acyclic, Outline.run_fill_ofDocument root, ?_⟩
  intro content built
  have unfolds := ofDocument_eq_ok_iff.mp built
  refine ⟨fun other => ⟨fun also => also.unique unfolds, ?_⟩, content.entries_eq_map_places,
    content.isTree_outline⟩
  rintro rfl
  exact unfolds

/-- An element with the same text in it twice. -/
theorem outline_numbers_shared_text :
    let document : Document := ⟨#[⟨.document, none, [1]⟩,
      ⟨.element ⟨"DIV", .empty⟩, some 0, [2, 2]⟩, ⟨.text "x", some 1, []⟩]⟩
    let content := Content.element ⟨"div", .empty, .empty, 0⟩ [.text "x", .text "x"]
    document.AcyclicFrom 1 ∧
      (Content.ofDocument document none 1).outcome = .ok content ∧
      document.Unfolds none 1 content ∧
      content.outline.entries.toList.map some = content.places.map content.entryAt? := by
  intro document content
  have acyclic : document.AcyclicFrom 1 := by
    refine AcyclicFrom.of_lt (fun above below listed => ?_) 1
    match above with
    | 0 | 1 => simp_all [IsAbove, children, get?, document]
    | 2 => simp [IsAbove, children, get?, document] at listed
    | above + 3 => simp [IsAbove, children, get?, document] at listed
  obtain ⟨unfolds, numbered, -⟩ := (acyclic.outline_numbers_unfolding none).2.2 content rfl
  exact ⟨acyclic, rfl, (unfolds content).mpr rfl, numbered⟩

end PagedHtml.Document
