/-
**Walks in a document that is not endless.**

A walk that is asked for a number of steps gives the first of the nodes that it would come to. Where
no node is above itself the walk up ends, and where no node is inside of itself the walk down does.

* `ancestors_eq_take`: the walk up ends after as many steps as there are nodes, whatever more it is
  asked for;
* `AcyclicFrom.descendants_eq`: what is at and below a node is the node, followed by what is at and
  below its children, for the generations that `descendants` goes down are enough;
* `visit_eq_take`: the walk down with nodes that wait gives what is at and below each of them;
* `AcyclicFrom.mem_descendants_iff`: this is all that children of children lead to.
-/

import PagedHtml.Proofs.Content.Unfolding

namespace PagedHtml.Document

variable {document : Document} {id root : Nat}

/-! ### Walking up -/

/-- That a node was last appended to another one. -/
def IsParent (document : Document) (above below : Nat) : Prop :=
  document.parent? below = some above

theorem ancestors_succ (document : Document) (limit id : Nat) :
    document.ancestors (limit + 1) id =
      match document.parent? id with
      | none => []
      | some parent => parent :: document.ancestors limit parent := by
  rw [ancestors]
  cases document.parent? id <;> rfl

/-- The walk up comes to the nodes above. -/
theorem transGen_of_mem_ancestors {limit upper : Nat}
    (listed : upper ∈ document.ancestors limit id) :
    Relation.TransGen document.IsParent upper id := by
  induction limit generalizing id with
  | zero => cases listed
  | succ limit ih =>
    rw [ancestors_succ] at listed
    cases known : document.parent? id with
    | none =>
      rw [known] at listed
      cases listed
    | some parent =>
      rw [known] at listed
      rcases List.mem_cons.mp listed with rfl | further
      · exact Relation.TransGen.single known
      · exact (ih further).tail known

/-- The walk up comes to all nodes above. -/
theorem exists_mem_ancestors {upper : Nat} (walk : Relation.TransGen document.IsParent upper id) :
    ∃ limit, upper ∈ document.ancestors limit id := by
  induction walk with
  | @single id known =>
    have known : document.parent? id = some upper := known
    refine ⟨1, ?_⟩
    rw [ancestors_succ, known]
    exact List.mem_cons_self
  | @tail between id _ known ih =>
    obtain ⟨limit, listed⟩ := ih
    have known : document.parent? id = some between := known
    refine ⟨limit + 1, ?_⟩
    rw [ancestors_succ, known]
    exact List.mem_cons_of_mem _ listed

/-- Further steps come after the first ones. -/
theorem take_ancestors (document : Document) (limit more id : Nat) :
    (document.ancestors (limit + more) id).take limit = document.ancestors limit id := by
  induction limit generalizing id with
  | zero => rfl
  | succ limit ih =>
    rw [Nat.add_right_comm, ancestors_succ, ancestors_succ]
    cases document.parent? id with
    | none => rfl
    | some parent => exact congrArg (parent :: ·) (ih parent)

/-- Where no node is above itself, the walk up comes to no node twice. -/
theorem nodup_ancestors (acyclic : ∀ id, ¬ Relation.TransGen document.IsParent id id)
    (limit id : Nat) : (document.ancestors limit id).Nodup := by
  induction limit generalizing id with
  | zero => exact List.nodup_nil
  | succ limit ih =>
    rw [ancestors_succ]
    cases known : document.parent? id with
    | none => exact List.nodup_nil
    | some parent =>
      exact List.nodup_cons.mpr
        ⟨fun again => acyclic parent (transGen_of_mem_ancestors again), ih parent⟩

theorem length_ancestors_le_of_lt {bound : Nat}
    (acyclic : ∀ id, ¬ Relation.TransGen document.IsParent id id)
    (within : ∀ above below, document.IsParent above below → above < bound) (limit id : Nat) :
    (document.ancestors limit id).length ≤ bound := by
  have inside : document.ancestors limit id ⊆ List.range bound := by
    intro upper listed
    obtain ⟨next, known, -⟩ := Relation.TransGen.head'_iff.mp (transGen_of_mem_ancestors listed)
    exact List.mem_range.mpr (within upper next known)
  simpa using ((nodup_ancestors acyclic limit id).subperm inside).length_le

/-- A walk that ends before its limit has come to its end. -/
theorem ancestors_of_length_le {limit : Nat}
    (ended : (document.ancestors (limit + 1) id).length ≤ limit) (more : Nat) :
    document.ancestors (limit + more) id = document.ancestors limit id := by
  induction limit generalizing id with
  | zero =>
    rw [ancestors_succ] at ended
    cases known : document.parent? id with
    | none => cases more with
      | zero => rfl
      | succ more => rw [Nat.zero_add, ancestors_succ, known]; rfl
    | some parent =>
      rw [known] at ended
      exact absurd ended (Nat.not_succ_le_zero _)
  | succ limit ih =>
    rw [ancestors_succ] at ended
    rw [Nat.add_right_comm, ancestors_succ, ancestors_succ]
    cases known : document.parent? id with
    | none => rfl
    | some parent =>
      rw [known] at ended
      exact congrArg (parent :: ·) (ih (Nat.le_of_succ_le_succ ended))

/-- **The walk up ends**, after at most as many steps as there are nodes. -/
theorem ancestors_eq_take {bound : Nat}
    (acyclic : ∀ id, ¬ Relation.TransGen document.IsParent id id)
    (within : ∀ above below, document.IsParent above below → above < bound) (limit id : Nat) :
    document.ancestors limit id = (document.ancestors bound id).take limit := by
  have short := length_ancestors_le_of_lt acyclic within
  rcases Nat.le_total limit bound with few | many
  · obtain ⟨more, rfl⟩ := Nat.exists_eq_add_of_le few
    exact (take_ancestors document limit more id).symm
  · obtain ⟨more, rfl⟩ := Nat.exists_eq_add_of_le many
    rw [ancestors_of_length_le (short _ id) more]
    exact (List.take_of_length_le (Nat.le_trans (short _ id) (Nat.le_add_right _ _))).symm

/-! ### Walking down -/

/-- The walk down comes to the nodes below. -/
theorem reflTransGen_of_mem_listing {depth : Nat} (listed : id ∈ document.listing depth root) :
    Relation.ReflTransGen document.IsAbove root id := by
  induction depth generalizing root with
  | zero => cases listed
  | succ depth ih =>
    rcases List.mem_cons.mp listed with rfl | further
    · exact Relation.ReflTransGen.refl
    · obtain ⟨child, below, deeper⟩ := List.mem_flatMap.mp further
      exact (ih deeper).head below

/-- That the children of nodes are nodes. -/
def ListsNodes (document : Document) : Prop :=
  ∀ above below, document.IsAbove above below → below < document.size

/-- More generations than there are nodes are never come to. -/
theorem AcyclicFrom.listing_of_le (closed : document.ListsNodes)
    (acyclic : document.AcyclicFrom root) (inside : root < document.size) {depth : Nat}
    (enough : document.size ≤ depth) : document.listing depth root = document.descendants root := by
  refine of_generations_of_acyclic
    (motive := fun least id => ∀ depth, least ≤ depth →
      document.listing depth id = document.listing least id)
    closed ?_ inside acyclic depth enough
  intro least id below depth enough
  obtain ⟨more, rfl⟩ := Nat.exists_eq_add_of_le enough
  rw [Nat.add_right_comm]
  exact congrArg (id :: ·) (List.flatMap_congr fun child listed =>
    below child listed _ (Nat.le_add_right least more))

theorem AcyclicFrom.child {child : Nat} (acyclic : document.AcyclicFrom root)
    (below : document.IsAbove root child) : document.AcyclicFrom child :=
  fun id reached => acyclic id (reached.head below)

/-- **A node comes before what is below its children.** -/
theorem AcyclicFrom.descendants_eq (closed : document.ListsNodes)
    (acyclic : document.AcyclicFrom root) (inside : root < document.size) :
    document.descendants root =
      root :: (document.children root).flatMap document.descendants := by
  rw [← acyclic.listing_of_le closed inside (Nat.le_succ _)]
  exact congrArg (root :: ·) (List.flatMap_congr fun child listed =>
    (acyclic.child listed).listing_of_le closed (closed root child listed) (Nat.le_refl _))

/-- **The walk down ends**, and comes to the nodes below those that wait, one after another. -/
theorem visit_eq_take (closed : document.ListsNodes) (limit : Nat) {pending : List Nat}
    (acyclic : ∀ id ∈ pending, id < document.size ∧ document.AcyclicFrom id) :
    document.visit limit pending = (pending.flatMap document.descendants).take limit := by
  induction limit generalizing pending with
  | zero => rfl
  | succ limit ih =>
    cases pending with
    | nil => rfl
    | cons id pending =>
      obtain ⟨⟨inside, here⟩, later⟩ := List.forall_mem_cons.mp acyclic
      have below : ∀ child ∈ document.children id,
          child < document.size ∧ document.AcyclicFrom child :=
        fun child listed => ⟨closed id child listed, here.child listed⟩
      rw [visit, ih (List.forall_mem_append.mpr ⟨below, later⟩), List.flatMap_append,
        List.flatMap_cons, here.descendants_eq closed inside, List.cons_append,
        List.take_succ_cons]

/-- **The walk down comes to exactly the nodes below.** -/
theorem AcyclicFrom.mem_descendants_iff (closed : document.ListsNodes)
    (acyclic : document.AcyclicFrom root) (inside : root < document.size) :
    id ∈ document.descendants root ↔ Relation.ReflTransGen document.IsAbove root id := by
  refine ⟨reflTransGen_of_mem_listing, fun walk => ?_⟩
  induction walk using Relation.ReflTransGen.head_induction_on with
  | refl =>
    rw [acyclic.descendants_eq closed inside]
    exact List.mem_cons_self
  | head below _ ih =>
    rw [acyclic.descendants_eq closed inside]
    exact List.mem_cons_of_mem _ (List.mem_flatMap.mpr
      ⟨_, below, ih (acyclic.child below) (closed _ _ below)⟩)

end PagedHtml.Document
