/-
**Documents that are built node by node are forests.**

A document lets a node be appended twice, or to a node inside of it. Whoever only appends nodes
without a place, and none to itself or to what is in it (`Permits`), builds a forest, however making
and appending alternate: each node lies in the node that lists it, once, and no node is inside of
itself. There every walk ends.

* `IsForest.ancestors_ends`, `IsForest.descendants_ends`: the walks in a forest;
* `IsForest.alloc`, `IsForest.appendChild`, `IsForest.perform`: what one call keeps;
* `forest_of_permitsAll`: what holds after any number of permitted calls.
-/

import PagedHtml.Proofs.Document.Walks

namespace PagedHtml.Document

variable {document : Document} {id parent child : Nat}

/-! ### Children are nodes -/

theorem ListsNodes.alloc (closed : document.ListsNodes) (kind : NodeKind) :
    (document.alloc kind).2.ListsNodes := by
  intro above below lists
  rw [IsAbove, children_alloc] at lists
  rw [size_alloc]
  exact Nat.lt_succ_of_lt (closed above below lists)

theorem ListsNodes.appendChild (closed : document.ListsNodes) (parent child : Nat) :
    (document.appendChild parent child).ListsNodes := by
  by_cases inside : parent < document.size ∧ child < document.size
  · intro above below lists
    rw [IsAbove, children_appendChild inside.1 inside.2] at lists
    rw [size_appendChild]
    split at lists
    · rcases List.mem_append.mp lists with old | new
      · exact closed above below old
      · exact List.mem_singleton.mp new ▸ inside.2
    · exact closed above below lists
  · rw [appendChild_of_outside inside]
    exact closed

/-! ### Forests -/

/-- **That the nodes of a document form a forest.** -/
structure IsForest (document : Document) : Prop where
  /-- The document itself is a node, and lies in no other one. -/
  root_inside : root < document.size
  root_alone : document.parent? root = none
  /-- A node lies in the one that lists it. -/
  parent_iff : ∀ child parent,
    document.parent? child = some parent ↔ child ∈ document.children parent
  nodup_children : ∀ id, (document.children id).Nodup
  listsNodes : document.ListsNodes
  /-- No node is inside of itself. -/
  acyclic : ∀ id, ¬ Relation.TransGen document.IsAbove id id

namespace IsForest

theorem isParent_eq (forest : document.IsForest) : document.IsParent = document.IsAbove := by
  funext above below
  exact propext (forest.parent_iff below above)

/-- No node is listed twice, be it in one node or in two. -/
theorem one_place (forest : document.IsForest) :
    ((List.range document.size).flatMap document.children).Nodup := by
  refine List.nodup_flatMap.mpr ⟨fun id _ => forest.nodup_children id, ?_⟩
  refine List.nodup_range.imp fun {first second} different child inFirst inSecond => different ?_
  have one := (forest.parent_iff child first).mpr inFirst
  exact Option.some.inj (one.symm.trans ((forest.parent_iff child second).mpr inSecond))

/-! ### Walks in a forest -/

/-- **The walk up ends**, and comes to no node twice. -/
theorem ancestors_ends (forest : document.IsForest) (id : Nat) :
    (document.ancestors document.size id).Nodup ∧
      ∀ limit, document.ancestors limit id = (document.ancestors document.size id).take limit := by
  have acyclic := forest.acyclic
  rw [← forest.isParent_eq] at acyclic
  refine ⟨nodup_ancestors acyclic _ id, fun limit => ancestors_eq_take acyclic ?_ limit id⟩
  rw [forest.isParent_eq]
  exact fun above below => lt_size_of_isAbove

/-- The walk up comes to the nodes above. -/
theorem mem_ancestors_iff (forest : document.IsForest) {upper : Nat} :
    upper ∈ document.ancestors document.size id ↔
      Relation.TransGen document.IsAbove upper id := by
  rw [← forest.isParent_eq]
  refine ⟨transGen_of_mem_ancestors, fun walk => ?_⟩
  obtain ⟨limit, listed⟩ := exists_mem_ancestors walk
  rw [(forest.ancestors_ends id).2] at listed
  exact List.mem_of_mem_take listed

theorem mem_inclusive_iff (forest : document.IsForest) {upper : Nat} :
    id = upper ∨ upper ∈ document.ancestors document.size id ↔
      Relation.ReflTransGen document.IsAbove upper id := by
  rw [forest.mem_ancestors_iff, Relation.reflTransGen_iff_eq_or_transGen]

/-- Of two nodes above a third one, one is above the other. -/
theorem total (forest : document.IsForest) {first second below : Nat}
    (one : Relation.ReflTransGen document.IsAbove first below)
    (other : Relation.ReflTransGen document.IsAbove second below) :
    Relation.ReflTransGen document.IsAbove first second ∨
      Relation.ReflTransGen document.IsAbove second first := by
  have functional : Relator.RightUnique (Function.swap document.IsAbove) :=
    fun inner outer outer' here there => Option.some.inj
      (((forest.parent_iff inner outer).mpr here).symm.trans
        ((forest.parent_iff inner outer').mpr there))
  have swapped := Relation.ReflTransGen.total_of_right_unique functional
    (Relation.reflTransGen_swap.mpr one) (Relation.reflTransGen_swap.mpr other)
  exact (swapped.imp Relation.reflTransGen_swap.mp Relation.reflTransGen_swap.mp).symm

/-- Nothing is in two nodes that lie in the same one. -/
theorem eq_of_siblings (forest : document.IsForest) {first second below : Nat}
    (inFirst : document.IsAbove id first) (inSecond : document.IsAbove id second)
    (one : Relation.ReflTransGen document.IsAbove first below)
    (other : Relation.ReflTransGen document.IsAbove second below) : first = second := by
  -- A node above its sibling would be above the node in which both lie.
  have apart {upper lower : Nat} (inUpper : document.IsAbove id upper)
      (inLower : document.IsAbove id lower)
      (walk : Relation.ReflTransGen document.IsAbove upper lower) : lower = upper := by
    rcases Relation.ReflTransGen.cases_tail walk with same | ⟨between, reached, last⟩
    · exact same
    · have same : id = between := Option.some.inj
        (((forest.parent_iff lower id).mpr inLower).symm.trans
          ((forest.parent_iff lower between).mpr last))
      subst same
      exact absurd (Relation.TransGen.head' inUpper reached) (forest.acyclic id)
  rcases forest.total one other with down | up
  · exact (apart inFirst inSecond down).symm
  · exact apart inSecond inFirst up

/-- The walk down comes to no node twice. -/
theorem nodup_listing (forest : document.IsForest) (depth id : Nat) :
    (document.listing depth id).Nodup := by
  induction depth generalizing id with
  | zero => exact List.nodup_nil
  | succ depth ih =>
    refine List.nodup_cons.mpr
      ⟨fun again => ?_, List.nodup_flatMap.mpr ⟨fun child _ => ih child, ?_⟩⟩
    · obtain ⟨child, listed, deeper⟩ := List.mem_flatMap.mp again
      exact forest.acyclic id (Relation.TransGen.head' listed (reflTransGen_of_mem_listing deeper))
    · refine (forest.nodup_children id).imp_of_mem ?_
      intro first second inFirst inSecond different below one other
      exact different (forest.eq_of_siblings inFirst inSecond (reflTransGen_of_mem_listing one)
        (reflTransGen_of_mem_listing other))

/-- **The walk down ends**, and comes once to each node in whose chain of ancestors the walk starts.
-/
theorem descendants_ends (forest : document.IsForest) (inside : id < document.size) :
    (document.descendants id).Nodup ∧
      (∀ limit, document.visit limit [id] = (document.descendants id).take limit) ∧
      ∀ below, below ∈ document.descendants id ↔
        below = id ∨ id ∈ document.ancestors document.size below := by
  have acyclic : document.AcyclicFrom id := fun below _ => forest.acyclic below
  refine ⟨forest.nodup_listing _ id, fun limit => ?_, fun below => ?_⟩
  · rw [visit_eq_take forest.listsNodes limit (List.forall_mem_singleton.mpr ⟨inside, acyclic⟩),
      List.flatMap_singleton]
  · rw [acyclic.mem_descendants_iff forest.listsNodes inside, forest.mem_inclusive_iff]

/-! ### Calls keep a forest -/

theorem blank : Document.blank.IsForest := by
  have nothing (id : Nat) : Document.blank.children id = [] := by
    rw [children_eq]
    rcases id with _ | id <;> rfl
  have alone (id : Nat) : Document.blank.parent? id = none := by
    rw [parent?_eq]
    rcases id with _ | id <;> rfl
  have empty (above below : Nat) : ¬ Document.blank.IsAbove above below := by
    rw [IsAbove, nothing]
    exact List.not_mem_nil
  refine ⟨Nat.zero_lt_one, alone root, fun child parent => ?_, fun id => ?_,
    fun above below lists => absurd lists (empty above below), fun id around => ?_⟩
  · rw [alone, nothing]
    exact iff_of_false (Option.some_ne_none parent).symm List.not_mem_nil
  · rw [nothing]
    exact List.nodup_nil
  · obtain ⟨next, lists, -⟩ := Relation.TransGen.head'_iff.mp around
    exact empty id next lists

theorem alloc (forest : document.IsForest) (kind : NodeKind) :
    (document.alloc kind).2.IsForest := by
  have same : (document.alloc kind).2.IsAbove = document.IsAbove := by
    funext above below
    rw [IsAbove, IsAbove, children_alloc]
  refine ⟨?_, ?_, fun child parent => ?_, fun id => ?_, forest.listsNodes.alloc kind, ?_⟩
  · rw [size_alloc]
    exact Nat.lt_succ_of_lt forest.root_inside
  · rw [parent?_alloc]
    exact forest.root_alone
  · rw [parent?_alloc, children_alloc]
    exact forest.parent_iff child parent
  · rw [children_alloc]
    exact forest.nodup_children id
  · rw [same]
    exact forest.acyclic

/-- A walk over one more step goes over it, or has been there before. -/
theorem transGen_of_added {α : Type} {R S : α → α → Prop} {upper lower : α}
    (added : ∀ a b, S a b → R a b ∨ a = upper ∧ b = lower) {a b : α}
    (walk : Relation.TransGen S a b) :
    Relation.TransGen R a b ∨
      Relation.ReflTransGen R a upper ∧ Relation.ReflTransGen R lower b := by
  induction walk with
  | single step =>
    rcases added _ _ step with old | ⟨rfl, rfl⟩
    · exact .inl (.single old)
    · exact .inr ⟨.refl, .refl⟩
  | tail _ step ih =>
    rcases added _ _ step with old | ⟨rfl, rfl⟩
    · exact ih.imp (·.tail old) (.imp_right (·.tail old))
    · exact .inr ⟨ih.elim (·.to_reflTransGen) And.left, .refl⟩

/-- **A node without a place is appended to one that it is not above.** -/
theorem appendChild (forest : document.IsForest) (above : parent < document.size)
    (below : child < document.size) (alone : document.parent? child = none)
    (notRoot : child ≠ root)
    (notAbove : ¬ Relation.ReflTransGen document.IsAbove child parent) :
    (document.appendChild parent child).IsForest := by
  have unlisted (id : Nat) : child ∉ document.children id := by
    rw [← forest.parent_iff, alone]
    exact nofun
  have added (upper lower : Nat) : (document.appendChild parent child).IsAbove upper lower →
      document.IsAbove upper lower ∨ upper = parent ∧ lower = child := by
    rw [IsAbove, IsAbove, children_appendChild above below]
    split
    · next same =>
      rw [List.mem_append, List.mem_singleton]
      exact Or.imp_right fun isChild => ⟨same.symm, isChild⟩
    · exact .inl
  refine ⟨?_, ?_, fun lower upper => ?_, fun id => ?_,
    forest.listsNodes.appendChild parent child, fun id around => ?_⟩
  · rw [size_appendChild]
    exact forest.root_inside
  · rw [parent?_appendChild above below, if_neg notRoot]
    exact forest.root_alone
  · rw [parent?_appendChild above below, children_appendChild above below]
    by_cases isChild : child = lower
    · subst isChild
      by_cases isParent : parent = upper
      · simp [isParent]
      · simp [isParent, unlisted]
    · rw [if_neg isChild, forest.parent_iff]
      split
      · simp [Ne.symm isChild]
      · rfl
  · rw [children_appendChild above below]
    split
    · refine List.nodup_append'.mpr
        ⟨forest.nodup_children id, List.nodup_singleton child, ?_⟩
      exact List.disjoint_singleton.mpr (unlisted id)
    · exact forest.nodup_children id
  · rcases transGen_of_added added around with old | ⟨up, down⟩
    · exact forest.acyclic id old
    · exact notAbove (down.trans up)

end IsForest

/-! ### Calls -/

/-- A call that changes a document. -/
inductive Operation where
  | alloc (kind : NodeKind)
  | append (parent : Nat) (kind : NodeKind)
  | appendChild (parent child : Nat)

/-- The document after a call. -/
def perform (document : Document) : Operation → Document
  | .alloc kind => (document.alloc kind).2
  | .append parent kind => (document.append parent kind).2
  | .appendChild parent child => document.appendChild parent child

/-- The document after some calls, one after another. -/
def performAll (document : Document) (operations : List Operation) : Document :=
  operations.foldl perform document

/-- **That a call gives no node a second place and puts none inside of itself.** A node that is made
is not appended to the number that it gets itself. What is appended is a node without a place, other
than the document itself, the node that it is appended to and those above that. Calls that append
with a number that has no node are free. -/
def Permits (document : Document) : Operation → Prop
  | .alloc _ => True
  | .append parent _ => parent ≠ document.size
  | .appendChild parent child =>
    parent < document.size → child < document.size →
      document.parent? child = none ∧ child ≠ root ∧ child ≠ parent ∧
        child ∉ document.ancestors document.size parent

/-- That each of some calls is permitted where it is made. -/
def PermitsAll : Document → List Operation → Prop
  | _, [] => True
  | document, operation :: rest =>
    document.Permits operation ∧ PermitsAll (document.perform operation) rest

instance (document : Document) : DecidablePred document.Permits
  | .alloc _ => inferInstanceAs (Decidable True)
  | .append _ _ => inferInstanceAs (Decidable (_ ≠ _))
  | .appendChild _ _ => inferInstanceAs (Decidable (_ → _ → _ ∧ _ ∧ _ ∧ _))

instance decidablePermitsAll : (document : Document) → DecidablePred document.PermitsAll
  | _, [] => inferInstanceAs (Decidable True)
  | document, operation :: rest =>
    have := decidablePermitsAll (document.perform operation) rest
    inferInstanceAs (Decidable (_ ∧ _))

/-- **A permitted call keeps a forest.** -/
theorem IsForest.perform (forest : document.IsForest) {operation : Operation}
    (permitted : document.Permits operation) : (document.perform operation).IsForest := by
  cases operation with
  | alloc kind => exact forest.alloc kind
  | append parent kind =>
    have made := forest.alloc kind
    have last : document.size < (document.alloc kind).2.size := by
      rw [size_alloc]
      exact Nat.lt_succ_self _
    show ((document.alloc kind).2.appendChild parent document.size).IsForest
    by_cases above : parent < (document.alloc kind).2.size
    · refine made.appendChild above last ?_ forest.root_inside.ne' fun walk => ?_
      · rw [parent?_alloc, parent?_eq, get?_of_ge (Nat.le_refl _)]
        rfl
      · rcases Relation.ReflTransGen.cases_head walk with same | ⟨next, lists, -⟩
        · exact permitted same.symm
        · rw [IsAbove, children_alloc] at lists
          exact absurd (lt_size_of_isAbove lists) (Nat.lt_irrefl _)
    · rw [appendChild_of_outside fun both => above both.1]
      exact made
  | appendChild parent child =>
    show (document.appendChild parent child).IsForest
    by_cases inside : parent < document.size ∧ child < document.size
    · obtain ⟨alone, notRoot, notParent, notAbove⟩ := permitted inside.1 inside.2
      refine forest.appendChild inside.1 inside.2 alone notRoot fun walk => ?_
      rcases forest.mem_inclusive_iff.mpr walk with same | further
      · exact notParent same.symm
      · exact notAbove further
    · rw [appendChild_of_outside inside]
      exact forest

theorem IsForest.performAll (forest : document.IsForest) {operations : List Operation}
    (permitted : document.PermitsAll operations) : (document.performAll operations).IsForest := by
  induction operations generalizing document with
  | nil => exact forest
  | cons operation rest ih => exact ih (forest.perform permitted.1) permitted.2

/-- **What is built by permitted calls is a forest.** A node lies in another just if that lists it,
no node is listed twice, and the document itself lies in none. The walk up from a node, asked for
any number of steps, gives the first of a list without repetitions, and so does the walk down, which
lists the nodes that have the first one as an ancestor or are it. Appending with a number that has
no node changes nothing. -/
theorem forest_of_permitsAll {operations : List Operation}
    (permitted : Document.blank.PermitsAll operations) :
    let document := Document.blank.performAll operations
    (∀ child parent,
      document.parent? child = some parent ↔ child ∈ document.children parent) ∧
    ((List.range document.size).flatMap document.children).Nodup ∧
    document.parent? root = none ∧
    (∀ id, (document.ancestors document.size id).Nodup ∧
      ∀ limit, document.ancestors limit id =
        (document.ancestors document.size id).take limit) ∧
    (∀ id < document.size, (document.descendants id).Nodup ∧
      (∀ limit, document.visit limit [id] = (document.descendants id).take limit) ∧
      ∀ below, below ∈ document.descendants id ↔
        below = id ∨ id ∈ document.ancestors document.size below) ∧
    ∀ parent child, ¬ (parent < document.size ∧ child < document.size) →
      document.appendChild parent child = document := by
  intro document
  have forest : document.IsForest := IsForest.blank.performAll permitted
  exact ⟨forest.parent_iff, forest.one_place, forest.root_alone, forest.ancestors_ends,
    fun id inside => forest.descendants_ends inside,
    fun parent child outside => appendChild_of_outside outside⟩

/-- A text that is made first and appended later, among calls with numbers that have no node. -/
theorem forest_of_permitsAll_later :
    let operations : List Operation :=
      [.append 0 (.element ⟨"ul", .empty⟩), .alloc (.text "x"), .append 9 (.comment "y"),
        .append 1 (.element ⟨"li", .empty⟩), .appendChild 4 2, .appendChild 7 1]
    let document := Document.blank.performAll operations
    Document.blank.PermitsAll operations ∧
      document.parent? 2 = some 4 ∧ 2 ∈ document.children 4 ∧
      document.descendants 1 = [1, 4, 2] ∧
      ∀ limit, document.visit limit [1] = [1, 4, 2].take limit := by
  intro operations document
  have permitted : Document.blank.PermitsAll operations := by decide +kernel
  have parent : document.parent? 2 = some 4 := by decide +kernel
  have below : document.descendants 1 = [1, 4, 2] := by decide +kernel
  obtain ⟨listed, -, -, -, down, -⟩ := forest_of_permitsAll permitted
  obtain ⟨-, visited, -⟩ := down 1 (by decide +kernel)
  exact ⟨permitted, parent, (listed 2 4).mp parent, below, fun limit => below ▸ visited limit⟩

end PagedHtml.Document
