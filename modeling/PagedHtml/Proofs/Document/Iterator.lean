/-
**Walking down a document with a stack.**

The numbers that wait for the walk are on a stack. A step takes the number on top and puts its
children in its place, the first of them on top (`Takes`). So what waits further down is taken only
when all that is below the number is, and the walk comes to the nodes in the order of the document,
a node with several places at each of them. Where no node is inside of itself it comes to an end.

* `InOrder.takes`, `takes_iff_inOrder`: what the walk takes is the order of what is on its stack;
* `InOrder.visit_eq_take`: the first steps of the walk;
* `ListsNodes.performAll`: no number without a node is listed in a document that is built;
* `InOrder.descendants_eq`: there `descendants`, which goes down by generations, has all nodes in
  order.
-/

import PagedHtml.Proofs.Document.Forest
import PagedHtml.Proofs.Document.Preorder

namespace PagedHtml

/-! ### Walking with a stack -/

/-- **A walk with a stack comes to its end, and takes some numbers on the way**: the number on top
of the stack, which is its last, and then what is taken once the children of the number are on top,
the first of them highest. -/
inductive Takes (children : Nat → List Nat) : (stack taken : List Nat) → Prop
  | done : Takes children [] []
  | pop {id : Nat} {stack taken : List Nat} :
      Takes children (stack ++ (children id).reverse) taken →
      Takes children (stack ++ [id]) (id :: taken)

namespace Takes

variable {children : Nat → List Nat} {stack taken : List Nat}

theorem nil_iff : Takes children [] taken ↔ taken = [] := by
  constructor
  · generalize empty : [] = stack
    intro takes
    cases takes with
    | done => rfl
    | pop => simp at empty
  · rintro rfl
    exact .done

theorem concat_iff {id : Nat} : Takes children (stack ++ [id]) taken ↔
    ∃ later, Takes children (stack ++ (children id).reverse) later ∧ taken = id :: later := by
  constructor
  · generalize whole : stack ++ [id] = start
    intro takes
    cases takes with
    | done => simp at whole
    | pop further =>
      obtain ⟨rfl, top⟩ := List.append_inj' whole rfl
      obtain rfl := List.singleton_inj.mp top
      exact ⟨_, further, rfl⟩
  · rintro ⟨later, further, rfl⟩
    exact .pop further

/-- A walk takes the same numbers whenever it is made. -/
theorem unique (takes : Takes children stack taken) {other : List Nat}
    (also : Takes children stack other) : other = taken := by
  induction takes generalizing other with
  | done => exact nil_iff.mp also
  | pop _ ih =>
    obtain ⟨later, further, rfl⟩ := concat_iff.mp also
    rw [ih further]

end Takes

namespace Document

variable {document : Document} {root : Nat}

/-! ### The order of a document -/

theorem inOrder_append_iff {first second order : List Nat} :
    document.InOrder (first ++ second) order ↔
      ∃ before after, document.InOrder first before ∧ document.InOrder second after ∧
        order = before ++ after := by
  constructor
  · intro inOrder
    induction first generalizing order with
    | nil => exact ⟨[], order, .nil, inOrder, rfl⟩
    | cons id first ih =>
      cases inOrder with
      | cons below later =>
        obtain ⟨before, after, here, behind, rfl⟩ := ih later
        exact ⟨_, after, .cons below here, behind, by simp⟩
  · rintro ⟨before, after, here, behind, rfl⟩
    induction here with
    | nil => exact behind
    | cons below _ _ ih =>
      rw [List.cons_append, List.cons_append, List.append_assoc]
      exact .cons below ih

/-- **What waits on a stack is taken before what was on it**, with all that is below. -/
theorem InOrder.takes {siblings order waiting taken : List Nat}
    (inOrder : document.InOrder siblings order) (takes : Takes document.children waiting taken) :
    Takes document.children (waiting ++ siblings.reverse) (order ++ taken) := by
  induction inOrder generalizing waiting taken with
  | nil => rwa [List.reverse_nil, List.append_nil, List.nil_append]
  | @cons _ _ below _ _ _ ihBelow ihAfter =>
    rw [List.reverse_cons, ← List.append_assoc, List.cons_append, List.append_assoc below]
    exact .pop (ihBelow (ihAfter takes))

/-- **The walk with a stack takes the nodes in the order of the document.** -/
theorem takes_iff_inOrder {stack taken : List Nat} :
    Takes document.children stack taken ↔ document.InOrder stack.reverse taken := by
  constructor
  · intro takes
    induction takes with
    | done => exact .nil
    | pop _ ih =>
      rw [List.reverse_append, List.reverse_reverse] at ih
      obtain ⟨below, after, inside, behind, rfl⟩ := inOrder_append_iff.mp ih
      rw [List.reverse_append]
      exact .cons inside behind
  · intro inOrder
    have takes := inOrder.takes .done
    rwa [List.reverse_reverse, List.nil_append, List.append_nil] at takes

/-- **So many steps of the walk come to the first so many nodes.** -/
theorem InOrder.visit_eq_take {pending order : List Nat} (inOrder : document.InOrder pending order)
    (limit : Nat) : document.visit limit pending = order.take limit := by
  induction limit generalizing pending order with
  | zero => rfl
  | succ limit ih =>
    cases inOrder with
    | nil => rfl
    | cons below after =>
      rw [visit, ih (inOrder_append_iff.mpr ⟨_, _, below, after, rfl⟩), List.take_succ_cons]

/-- Going down by generations comes to the nodes in the order of the document. -/
theorem InOrder.eq_flatMap_descendants (closed : document.ListsNodes) {siblings order : List Nat}
    (inOrder : document.InOrder siblings order)
    (acyclic : ∀ id ∈ siblings, id < document.size ∧ document.AcyclicFrom id) :
    order = siblings.flatMap document.descendants := by
  induction inOrder with
  | nil => rfl
  | @cons id siblings below after _ _ ihBelow ihAfter =>
    obtain ⟨⟨inside, here⟩, later⟩ := List.forall_mem_cons.mp acyclic
    have lower : below = (document.children id).flatMap document.descendants :=
      ihBelow fun child listed => ⟨closed id child listed, here.child listed⟩
    rw [List.flatMap_cons, here.descendants_eq closed inside, ← lower, ← ihAfter later,
      List.cons_append]

/-! ### Documents that are built -/

/-- **No call lists a number that has no node**, and none removes a node. -/
theorem ListsNodes.perform (closed : document.ListsNodes) (operation : Operation) :
    (document.perform operation).ListsNodes ∧
      document.size ≤ (document.perform operation).size := by
  cases operation with
  | alloc kind => exact ⟨closed.alloc kind, by rw [Document.perform, size_alloc]; omega⟩
  | append parent kind =>
    refine ⟨(closed.alloc kind).appendChild parent document.size, ?_⟩
    show _ ≤ ((document.alloc kind).2.appendChild parent document.size).size
    rw [size_appendChild, size_alloc]
    omega
  | appendChild parent child =>
    exact ⟨closed.appendChild parent child, by rw [Document.perform, size_appendChild]⟩

theorem ListsNodes.performAll (closed : document.ListsNodes) (operations : List Operation) :
    (document.performAll operations).ListsNodes ∧
      document.size ≤ (document.performAll operations).size := by
  induction operations generalizing document with
  | nil => exact ⟨closed, Nat.le_refl _⟩
  | cons operation rest ih =>
    obtain ⟨still, more⟩ := closed.perform operation
    exact (ih still).imp_right (Nat.le_trans more)

/-- **Going down by generations comes to all nodes in order** in a document that is built. -/
theorem InOrder.descendants_eq {operations : List Operation} {id : Nat} {order : List Nat}
    (inOrder : (blank.performAll operations).InOrder [id] order)
    (acyclic : (blank.performAll operations).AcyclicFrom id) :
    (blank.performAll operations).descendants id = order := by
  obtain ⟨closed, more⟩ := IsForest.blank.listsNodes.performAll operations
  by_cases inside : id < (blank.performAll operations).size
  · have whole := inOrder.eq_flatMap_descendants closed
      (List.forall_mem_singleton.mpr ⟨inside, acyclic⟩)
    rw [whole, List.flatMap_singleton]
  · -- A number without a node is all there is of it, as there is a generation at least.
    have nothing := children_of_ge (Nat.le_of_not_lt inside)
    obtain ⟨generations, size⟩ := Nat.exists_eq_add_of_le (Nat.le_trans (Nat.le_refl 1) more)
    obtain ⟨below, further, rfl⟩ := inOrder_singleton_iff.mp inOrder
    rw [nothing] at further
    cases further
    rw [descendants, size, Nat.add_comm, listing, nothing, List.flatMap_nil]

end Document

end PagedHtml
