/-
**What a hidden element holds is not seen.**

Building asks whether an element is hidden before it looks at anything else of it, and the answer
reports nothing. A document whose hidden elements are turned into comments (`Document.commentOut`)
is therefore built into the same content, with the same diagnostics in the same order, whatever
stands in those elements.

* `convert_commentOut`: one node, with everything below it, at any depth;
* `AcyclicShownFrom.ofDocument_commentOut`: the whole of it, for documents in which only what is
  hidden may be inside of itself.
-/

import PagedHtml.Proofs.Content.Filling
import PagedHtml.Proofs.Content.Unfolding

namespace PagedHtml

/-- The kind of a node, a comment in place of an element that is hidden. -/
def NodeKind.commentOut (computed : Option ComputedStyle) (remark : Nat → String) (id : Nat) :
    NodeKind → NodeKind
  | .element data =>
    if Content.isHidden computed id data then .comment (remark id) else .element data
  | kind => kind

/-- **A document with every hidden element turned into a comment.** What the comments say is up to
`remark`; all places are kept. -/
def Document.commentOut (document : Document) (computed : Option ComputedStyle)
    (remark : Nat → String) : Document :=
  ⟨document.nodes.mapIdx fun id node =>
    { node with kind := node.kind.commentOut computed remark id }⟩

namespace Content

variable {document : Document} {computed : Option ComputedStyle} (remark : Nat → String)

theorem size_commentOut : (document.commentOut computed remark).size = document.size := by
  simp [Document.commentOut, Document.size]

theorem get?_commentOut (id : Nat) :
    (document.commentOut computed remark).get? id =
      (document.get? id).map fun node =>
        { node with kind := node.kind.commentOut computed remark id } := by
  simp [Document.commentOut, Document.get?]

/-- **A node is built the same**, with everything below it, when hidden elements are comments. -/
theorem convert_commentOut (depth id : Nat) :
    convert (document.commentOut computed remark) computed depth id =
      convert document computed depth id := by
  induction depth generalizing id with
  | zero => rfl
  | succ depth ih =>
    have below : convert (document.commentOut computed remark) computed depth =
        convert document computed depth := funext ih
    rw [convert, convert, get?_commentOut]
    cases document.get? id with
    | none => rfl
    | some node =>
      simp only [Option.map_some]
      cases kind : node.kind with
      | element data =>
        by_cases hidden : isHidden computed id data = true
        · simp only [NodeKind.commentOut, hidden, if_true]
        · rw [Bool.not_eq_true] at hidden
          simp only [NodeKind.commentOut, hidden, Bool.false_eq_true, if_false, below]
      | _ => rfl

end Content

variable {document : Document} {computed : Option ComputedStyle}

/-- **Hidden elements may as well be comments**: where only what is in them may be inside of itself,
building comes to an end, and to the same content or error with the same diagnostics. -/
theorem Document.AcyclicShownFrom.ofDocument_commentOut {root : Nat}
    (acyclic : document.AcyclicShownFrom computed root) (remark : Nat → String) :
    (Content.ofDocument document computed root).outcome ≠ .error .endless ∧
    Content.ofDocument (document.commentOut computed remark) computed root =
      Content.ofDocument document computed root ∧
    (Outline.fill (document.commentOut computed remark) computed
        ((document.commentOut computed remark).size + 1) none root).run #[] =
      (Outline.fill document computed (document.size + 1) none root).run #[] := by
  have same : Content.ofDocument (document.commentOut computed remark) computed root =
      Content.ofDocument document computed root := by
    rw [Content.ofDocument, Content.size_commentOut, Content.convert_commentOut]
    rfl
  refine ⟨ofDocument_ne_endless_of_shown acyclic, same, ?_⟩
  rw [Outline.run_fill_ofDocument, Outline.run_fill_ofDocument, same]

/-- An element that is inside of itself, with a document type in it, does no harm where it is
hidden. -/
theorem Document.ofDocument_commentOut_endless :
    let document : Document := ⟨#[⟨.document, none, [1]⟩,
      ⟨.element ⟨"DIV", .empty⟩, some 0, [2, 3]⟩, ⟨.element ⟨"span", .empty⟩, some 2, [2, 4]⟩,
      ⟨.text "x", some 1, []⟩, ⟨.doctype "html", some 2, []⟩]⟩
    let computed : Option ComputedStyle := some (ComputedStyle.empty.set 2 "display" " none")
    document.AcyclicShownFrom computed 1 ∧
      (Content.ofDocument document computed 1).outcome =
        .ok (.element ⟨"div", .empty, .empty, 0⟩ [.text "", .text "x"]) ∧
      Content.ofDocument (document.commentOut computed fun _ => "gone") computed 1 =
        Content.ofDocument document computed 1 := by
  intro document computed
  have acyclic : document.AcyclicShownFrom computed 1 := by
    refine AcyclicShownFrom.of_lt (fun above below step => ?_) 1
    obtain ⟨⟨data, found, shown⟩, listed⟩ := step
    match above with
    | 0 => cases found
    | 1 =>
      have places : below = 2 ∨ below = 3 := by
        simpa [IsAbove, children, get?, document] using listed
      omega
    | 2 =>
      cases found
      exact absurd shown (by decide +kernel)
    | 3 | 4 | above + 5 => cases found
  exact ⟨acyclic, rfl, (acyclic.ofDocument_commentOut fun _ => "gone").2.1⟩

end PagedHtml
