/-
**The order of a document.**

In the order of a document a node comes before what is below it, and that comes before the next
sibling of the node (`InOrder`). Nothing bounds how far down the order goes: there is one order of
what is below a node, unless a node there is inside of itself, and then there is none.

* `InOrder.unique`, `AcyclicFrom.exists_inOrder`: there is one order. It exists by induction on the
  generations below the root, which are no more than there are nodes;
* `AcyclicFrom.filter_descendants`: `descendants` goes down by generations, and has all nodes in
  order.
-/

import PagedHtml.Proofs.Content.Unfolding

namespace PagedHtml.Document

variable {document : Document} {root id : Nat}

/-- **The order of some siblings and all that is below them**: each comes before what is below it,
and that before the siblings behind it. -/
inductive InOrder (document : Document) : (siblings order : List Nat) → Prop
  | nil : InOrder document [] []
  | cons {id : Nat} {siblings below after : List Nat} :
      InOrder document (document.children id) below → InOrder document siblings after →
      InOrder document (id :: siblings) (id :: (below ++ after))

/-- A node without children comes right before the siblings behind it. -/
theorem InOrder.childless {siblings after : List Nat} (nothing : document.children id = [])
    (inOrder : document.InOrder siblings after) :
    document.InOrder (id :: siblings) (id :: after) := by
  have below : document.InOrder (document.children id) [] := by
    rw [nothing]
    exact .nil
  exact .cons below inOrder

theorem InOrder.unique {siblings order other : List Nat} (inOrder : document.InOrder siblings order)
    (also : document.InOrder siblings other) : other = order := by
  induction inOrder generalizing other with
  | nil =>
    cases also
    rfl
  | cons _ _ ihBelow ihAfter =>
    cases also with
    | cons below after => rw [ihBelow below, ihAfter after]

/-- The order at a node is the node and the order of what is below it. -/
theorem inOrder_singleton_iff {order : List Nat} :
    document.InOrder [id] order ↔
      ∃ below, document.InOrder (document.children id) below ∧ order = id :: below := by
  constructor
  · intro inOrder
    cases inOrder with
    | cons below after =>
      cases after
      exact ⟨_, below, by rw [List.append_nil]⟩
  · rintro ⟨below, inside, rfl⟩
    have alone := InOrder.cons inside InOrder.nil
    rwa [List.append_nil] at alone

theorem exists_inOrder_of_forall {siblings : List Nat}
    (each : ∀ id ∈ siblings, ∃ below, document.InOrder (document.children id) below) :
    ∃ order, document.InOrder siblings order := by
  induction siblings with
  | nil => exact ⟨[], .nil⟩
  | cons first rest ih =>
    obtain ⟨⟨below, here⟩, later⟩ := List.forall_mem_cons.mp each
    obtain ⟨after, behind⟩ := ih later
    exact ⟨_, .cons here behind⟩

/-- **There is an order** if no node is inside of itself. -/
theorem AcyclicFrom.exists_inOrder (acyclic : document.AcyclicFrom root) :
    ∃ order, document.InOrder [root] order := by
  have down : ∃ below, document.InOrder (document.children root) below :=
    of_generations_succ_of_acyclic
      (motive := fun _ id => ∃ below, document.InOrder (document.children id) below)
      (fun _ _ => lt_size_of_isAbove) (fun _ _ below => exists_inOrder_of_forall below) acyclic
  obtain ⟨below, inside⟩ := down
  exact ⟨_, inOrder_singleton_iff.mpr ⟨below, inside, rfl⟩⟩

/-! ### Going down by generations -/

/-- Numbers without a node have no children. -/
theorem children_of_ge (beyond : document.size ≤ id) : document.children id = [] := by
  rw [children_eq, get?_of_ge beyond]
  rfl

section

variable {keep : Nat → Bool}

/-- Numbers without a node come to nothing, however many generations there are left. -/
theorem filter_listing_of_missing (kept : ∀ id, keep id = true → id < document.size)
    (missing : ¬ id < document.size) {below : List Nat}
    (inside : document.InOrder (document.children id) below) (depth : Nat) :
    (document.listing depth id).filter keep = (id :: below).filter keep := by
  have skipped : ¬ keep id = true := fun keeps => missing (kept id keeps)
  have nothing := children_of_ge (Nat.le_of_not_lt missing)
  rw [nothing] at inside
  cases inside
  cases depth with
  | zero => rw [List.filter_cons_of_neg skipped, listing]
  | succ depth => rw [listing, nothing, List.flatMap_nil]

/-- What is found at siblings is found in their order, if it is at each of them. -/
theorem filter_flatMap_listing {siblings order : List Nat}
    (inOrder : document.InOrder siblings order) {depth : Nat}
    (each : ∀ id ∈ siblings, ∀ below, document.InOrder (document.children id) below →
      (document.listing depth id).filter keep = (id :: below).filter keep) :
    (siblings.flatMap (document.listing depth)).filter keep = order.filter keep := by
  induction siblings generalizing order with
  | nil =>
    cases inOrder
    rfl
  | cons first rest ih =>
    cases inOrder with
    | cons below after =>
      obtain ⟨here, later⟩ := List.forall_mem_cons.mp each
      rw [List.flatMap_cons, List.filter_append, here _ below, ih after later,
        ← List.filter_append, List.cons_append]

/-- **What `descendants` has of the nodes of some kind is in the order of the document**, and is all
there is of them. -/
theorem AcyclicFrom.filter_descendants (acyclic : document.AcyclicFrom root)
    (kept : ∀ id, keep id = true → id < document.size) {order : List Nat}
    (inOrder : document.InOrder [root] order) :
    (document.descendants root).filter keep = order.filter keep := by
  obtain ⟨below, inside, rfl⟩ := inOrder_singleton_iff.mp inOrder
  by_cases isNode : root < document.size
  · -- Only nodes count as a generation, for numbers without a node may be one generation too deep.
    let Goes (above below : Nat) : Prop := document.IsAbove above below ∧ below < document.size
    have fewer : Goes ≤ document.IsAbove := fun _ _ goes => goes.1
    refine of_generations_of_acyclic (R := Goes)
      (motive := fun depth id => ∀ below, document.InOrder (document.children id) below →
        (document.listing depth id).filter keep = (id :: below).filter keep)
      (fun _ _ goes => goes.2) ?_ isNode
      (fun id reached around => acyclic id (Relation.ReflTransGen.mono fewer _ _ reached)
        (Relation.TransGen.mono fewer _ _ around)) below inside
    intro depth id lower below inside
    have found : ((document.children id).flatMap (document.listing depth)).filter keep =
        below.filter keep := by
      refine filter_flatMap_listing inside fun child listed lowest further => ?_
      by_cases isNode : child < document.size
      · exact lower child ⟨listed, isNode⟩ lowest further
      · exact filter_listing_of_missing kept isNode further depth
    rw [listing, List.filter_cons, List.filter_cons, found]
  · exact filter_listing_of_missing kept isNode inside document.size

end

end PagedHtml.Document
