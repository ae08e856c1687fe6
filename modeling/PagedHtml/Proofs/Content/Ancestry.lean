/-
**Walking up an outline.**

In an outline that is a tree the walk up from a number is the element around it followed by the walk
up from there: parents have smaller numbers, so that the limit on the walk is never reached. The
chain of an element therefore is the element followed by the chain of the element around it.

* `IsTree.ancestors_eq`, `IsTree.chain_eq`: one step of the walk;
* `IsTree.exists_above_iff`: what the chain holds are the elements that the walk comes to.
-/

import PagedHtml.Proofs.Content.Shape

namespace PagedHtml.Outline

variable {outline : Outline} {id parent : Nat}

/-- One step of the walk up. -/
def IsAround (outline : Outline) (inner outer : Nat) : Prop := outline.parent? inner = some outer

/-- The elements around the one with a number, the nearest first. -/
def above (outline : Outline) (id : Nat) : List StyledElement :=
  (outline.ancestors id).filterMap outline.element?

/-! ### Parents -/

theorem exists_get?_of_parent? (known : outline.parent? id = some parent) :
    ∃ data children, outline.get? id = some (.element data (some parent) children) := by
  unfold parent? at known
  split at known
  · next data above children found =>
    subst known
    exact ⟨data, children, found⟩
  · cases known

theorem exists_element?_of_parent? (known : outline.parent? id = some parent) :
    ∃ data, outline.element? id = some data := by
  obtain ⟨data, children, found⟩ := exists_get?_of_parent? known
  exact ⟨data, by rw [element?, found]⟩

theorem lt_size_of_element? {data : StyledElement} (found : outline.element? id = some data) :
    id < outline.size := by
  unfold element? at found
  split at found
  · next data above children listed => exact (Array.getElem?_eq_some_iff.mp listed).1
  · cases found

theorem lt_size_of_parent? (known : outline.parent? id = some parent) : id < outline.size := by
  obtain ⟨data, found⟩ := exists_element?_of_parent? known
  exact lt_size_of_element? found

/-- Only elements have parents. -/
theorem parent?_of_element?_eq_none (unknown : outline.element? id = none) :
    outline.parent? id = none := by
  by_contra known
  obtain ⟨parent, known⟩ := Option.ne_none_iff_exists'.mp known
  obtain ⟨data, found⟩ := exists_element?_of_parent? known
  rw [unknown] at found
  cases found

namespace IsTree

theorem mem_children (tree : outline.IsTree) (known : outline.parent? id = some parent) :
    id ∈ outline.children parent := by
  obtain ⟨data, found⟩ := exists_element?_of_parent? known
  exact (tree.parent_iff id data found parent).mp known

theorem parent_lt (tree : outline.IsTree) (known : outline.parent? id = some parent) :
    parent < id :=
  (List.pairwise_cons.mp (tree.increasing parent)).1 id (tree.mem_children known)

/-- What is around something is an element. -/
theorem exists_element?_parent (tree : outline.IsTree) (known : outline.parent? id = some parent) :
    ∃ data, outline.element? parent = some data := by
  have listed := tree.mem_children known
  unfold children at listed
  split at listed
  · next data above children found => exact ⟨data, by rw [element?, found]⟩
  · cases listed

/-! ### The walk -/

/-- A limit above the number at which a walk starts does not end it. -/
theorem ascend_of_lt (tree : outline.IsTree) {limit more : Nat} (enough : id < limit)
    (also : id < more) : outline.ascend limit (some id) = outline.ascend more (some id) := by
  induction limit generalizing id more with
  | zero => omega
  | succ limit ih =>
    obtain ⟨more, rfl⟩ := Nat.exists_eq_add_of_lt (Nat.lt_of_le_of_lt (Nat.zero_le id) also)
    rw [Nat.zero_add, ascend, ascend]
    congr 1
    cases known : outline.parent? id with
    | none => cases limit <;> cases more <;> rfl
    | some parent =>
      have smaller := tree.parent_lt known
      exact ih (by omega) (by omega)

/-- **One step of the walk up.** -/
theorem ancestors_eq (tree : outline.IsTree) (id : Nat) :
    outline.ancestors id =
      match outline.parent? id with
      | none => []
      | some parent => parent :: outline.ancestors parent := by
  cases known : outline.parent? id with
  | none =>
    rw [ancestors, known]
    cases outline.size <;> rfl
  | some parent =>
    have inside := lt_size_of_parent? known
    have smaller := tree.parent_lt known
    simp only [ancestors, known]
    cases limited : outline.size with
    | zero => omega
    | succ total =>
      show parent :: outline.ascend total (outline.parent? parent) = _
      congr 1
      cases further : outline.parent? parent with
      | none => cases total <;> rfl
      | some upper =>
        have less := tree.parent_lt further
        exact tree.ascend_of_lt (by omega) (by omega)

theorem above_eq (tree : outline.IsTree) (id : Nat) :
    outline.above id =
      match outline.parent? id with
      | none => []
      | some parent => outline.chain parent := by
  rw [above, tree.ancestors_eq]
  cases outline.parent? id <;> rfl

/-- **The chain of an element is the element followed by those around it.** -/
theorem chain_eq (tree : outline.IsTree) (id : Nat) :
    outline.chain id =
      match outline.element? id with
      | none => []
      | some data => data :: outline.above id := by
  rw [chain, List.filterMap_cons]
  cases unknown : outline.element? id with
  | none =>
    show (outline.ancestors id).filterMap outline.element? = []
    rw [tree.ancestors_eq, parent?_of_element?_eq_none unknown]
    rfl
  | some data => rfl

theorem above_of_parent? (tree : outline.IsTree) {data : StyledElement}
    (known : outline.parent? id = some parent) (found : outline.element? parent = some data) :
    outline.above id = data :: outline.above parent := by
  rw [tree.above_eq, known]
  show outline.chain parent = _
  rw [tree.chain_eq, found]

/-- The nearest of the elements above is the one that the parent number leads to. -/
theorem head?_above (tree : outline.IsTree) (id : Nat) :
    (outline.above id).head? = (outline.parent? id).bind outline.element? := by
  cases known : outline.parent? id with
  | none =>
    rw [tree.above_eq, known]
    rfl
  | some parent =>
    obtain ⟨data, found⟩ := tree.exists_element?_parent known
    rw [tree.above_of_parent? known found, Option.bind_some, found]
    rfl

/-- **The elements above are those that the walk up comes to**, each followed by those above it. -/
theorem exists_above_iff (tree : outline.IsTree) {data : StyledElement}
    {further : List StyledElement} :
    (∃ nearer, outline.above id = nearer ++ data :: further) ↔
      ∃ outer, Relation.TransGen outline.IsAround id outer ∧ outline.element? outer = some data ∧
        further = outline.above outer := by
  constructor
  · induction id using Nat.strongRecOn with
    | ind id ih =>
      rintro ⟨nearer, split⟩
      cases known : outline.parent? id with
      | none =>
        rw [tree.above_eq, known] at split
        simp at split
      | some parent =>
        obtain ⟨first, found⟩ := tree.exists_element?_parent known
        rw [tree.above_of_parent? known found] at split
        cases nearer with
        | nil =>
          obtain ⟨rfl, rfl⟩ := List.cons.inj split
          exact ⟨parent, Relation.TransGen.single known, found, rfl⟩
        | cons next nearer =>
          obtain ⟨rfl, later⟩ := List.cons.inj split
          obtain ⟨outer, walk, reached, rest⟩ := ih parent (tree.parent_lt known) ⟨nearer, later⟩
          exact ⟨outer, walk.head known, reached, rest⟩
  · rintro ⟨outer, walk, reached, rfl⟩
    induction walk using Relation.TransGen.head_induction_on with
    | single known => exact ⟨[], tree.above_of_parent? known reached⟩
    | head known _ ih =>
      obtain ⟨first, found⟩ := tree.exists_element?_parent known
      obtain ⟨nearer, split⟩ := ih
      exact ⟨first :: nearer, by rw [tree.above_of_parent? known found, split]; rfl⟩

end IsTree

end PagedHtml.Outline
