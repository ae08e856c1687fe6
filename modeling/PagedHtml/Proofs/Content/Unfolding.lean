/-
**The content of a document is its unfolding.**

`Document.Unfolds` says what the content of a node is without saying how to compute it: a text is
itself, a comment and a hidden element are an empty text, and any other element is an element over
the contents of its children. A node with several places is unfolded at each of them.

* `countSiblings_eq`: what counting siblings by tag comes to;
* `ofDocument_eq_ok_iff`: building succeeds with a content just if the node unfolds to it. The bound
  on generations never cuts an unfolding off: along the deepest way down an unfolding, contents have
  different numbers of generations, so their nodes are different, and a document has `size` of them;
* `of_generations_of_acyclic`, `Document.AcyclicShownFrom.of_generations`: what holds of a node if
  it holds of those below it;
* `ofDocument_ne_endless`: building breaks off as endless only where a node is inside of itself.
-/

import PagedHtml.Proofs.Content.Building
import Mathlib.Data.Fintype.Card
import Mathlib.Data.List.Basic
import Mathlib.Logic.Relation

namespace PagedHtml

namespace Content

/-! ### Counting siblings -/

/-- Whether content is an element with a tag. -/
def hasTag (tag : String) (content : Content) : Bool :=
  content.element?.any fun data => data.tag == tag

/-- Content as the sibling right behind others: an element counts those with its own tag. -/
def behind (earlier : List Content) : Content → Content
  | text shown => text shown
  | element data children =>
    element { data with indexOfType := earlier.countP (hasTag data.tag) } children

theorem children_behind (earlier : List Content) (content : Content) :
    (content.behind earlier).children = content.children := by
  cases content <;> rfl

/-- Counting goes on behind siblings that have the tags `before`. -/
theorem countFrom_eq (before : List String) (earlier siblings : List Content)
    (same : ∀ tag, before.count tag = earlier.countP (hasTag tag)) :
    countFrom before siblings =
      siblings.mapIdx fun place sibling => sibling.behind (earlier ++ siblings.take place) := by
  induction siblings generalizing before earlier with
  | nil => rfl
  | cons first rest ih =>
    have shift (place : Nat) :
        earlier ++ (first :: rest).take (place + 1) = (earlier ++ [first]) ++ rest.take place := by
      simp
    rw [List.mapIdx_cons]
    simp only [shift, List.take_zero, List.append_nil]
    cases first with
    | text shown =>
      rw [countFrom, ih before (earlier ++ [text shown]) fun tag => by
        rw [same, List.countP_append]
        rfl]
      rfl
    | element data children =>
      rw [countFrom, ih (data.tag :: before) (earlier ++ [element data children]) fun tag => by
        rw [List.count_cons, same, List.countP_append]
        simp [List.countP_cons, hasTag, element?], same]
      rfl

/-- **Each sibling counts the elements with its tag before it.** -/
theorem countSiblings_eq (siblings : List Content) :
    countSiblings siblings =
      siblings.mapIdx fun place sibling => sibling.behind (siblings.take place) :=
  countFrom_eq [] [] siblings fun _ => rfl

/-! ### Generations -/

mutual

/-- How many generations there are in a content. -/
def generations : Content → Nat
  | text _ => 1
  | element _ children => generationsAll children + 1

/-- How many generations there are at most in one of several contents. -/
def generationsAll : List Content → Nat
  | [] => 0
  | first :: rest => max first.generations (generationsAll rest)

end

theorem generations_pos (content : Content) : 0 < content.generations := by
  cases content <;> simp [generations]

theorem generations_behind (earlier : List Content) (content : Content) :
    (content.behind earlier).generations = content.generations := by
  cases content <;> simp [behind, generations]

theorem generations_le_of_mem {content : Content} {siblings : List Content}
    (member : content ∈ siblings) : content.generations ≤ generationsAll siblings := by
  induction siblings with
  | nil => cases member
  | cons first rest ih =>
    rw [generationsAll]
    rcases List.mem_cons.mp member with rfl | later
    · exact Nat.le_max_left _ _
    · exact Nat.le_trans (ih later) (Nat.le_max_right _ _)

/-- The most generations among several contents are those of one of them. -/
theorem exists_generations_eq {siblings : List Content} (some_sibling : siblings ≠ []) :
    ∃ content ∈ siblings, content.generations = generationsAll siblings := by
  induction siblings with
  | nil => exact absurd rfl some_sibling
  | cons first rest ih =>
    rw [generationsAll]
    by_cases larger : generationsAll rest ≤ first.generations
    · exact ⟨first, List.mem_cons_self, (Nat.max_eq_left larger).symm⟩
    · have later : rest ≠ [] := by
        rintro rfl
        exact larger (Nat.zero_le _)
      obtain ⟨content, member, most⟩ := ih later
      refine ⟨content, List.mem_cons_of_mem _ member, ?_⟩
      rw [most, Nat.max_eq_right (Nat.le_of_not_le larger)]

end Content

open Content

/-! ### Unfolding -/

/-- **The content of a node**, as the nodes below it determine it. -/
inductive Document.Unfolds (document : Document) (computed : Option ComputedStyle) :
    Nat → Content → Prop
  | text {id : Nat} {node : Node} {shown : String} :
      document.get? id = some node → node.kind = .text shown →
      Unfolds document computed id (.text shown)
  | comment {id : Nat} {node : Node} {remark : String} :
      document.get? id = some node → node.kind = .comment remark →
      Unfolds document computed id (.text "")
  | hidden {id : Nat} {node : Node} {data : Element} :
      document.get? id = some node → node.kind = .element data →
      isHidden computed id data = true → Unfolds document computed id (.text "")
  | element {id : Nat} {node : Node} {data : Element} {style : Style.Map} {images : List Content} :
      document.get? id = some node → node.kind = .element data →
      isHidden computed id data = false → (elementStyle computed id data).outcome = .ok style →
      images.length = node.children.length →
      (∀ (place child : Nat) (image : Content), node.children[place]? = some child →
        images[place]? = some image → Unfolds document computed child image) →
      Unfolds document computed id
        (.element ⟨Text.lower data.tag, data.attributes, style, 0⟩
          (images.mapIdx fun place image => image.behind (images.take place)))

variable {document : Document} {computed : Option ComputedStyle}

/-- **What building makes of a node is its unfolding.** -/
theorem unfolds_of_convert {depth id : Nat} {content : Content}
    (built : (convert document computed depth id).outcome = .ok content) :
    document.Unfolds computed id content := by
  induction depth generalizing id content with
  | zero => cases built
  | succ depth ih =>
    rw [outcome_convert_succ] at built
    cases found : document.get? id with
    | none =>
      rw [found] at built
      cases built
    | some node =>
      rw [found] at built
      simp only at built
      cases kind : node.kind with
      | document => simp [kind] at built
      | doctype name => simp [kind] at built
      | text shown =>
        simp only [kind, Except.ok.injEq] at built
        exact built ▸ .text found kind
      | comment remark =>
        simp only [kind, Except.ok.injEq] at built
        exact built ▸ .comment found kind
      | element data =>
        simp only [kind] at built
        by_cases hidden : isHidden computed id data = true
        · rw [if_pos hidden] at built
          cases built
          exact .hidden found kind hidden
        · rw [if_neg hidden] at built
          obtain ⟨style, images, styled, made, rfl⟩ := outcomeOfElement_eq_ok_iff.mp built
          obtain ⟨long, each⟩ := mapM_eq_ok_iff.mp made
          rw [countSiblings_eq]
          exact .element found kind (Bool.not_eq_true _ ▸ hidden) styled long
            fun place child image valued resulted => ih (each place child image valued resulted)

/-- **An unfolding is built if there are enough generations for it.** -/
theorem convert_of_unfolds {depth id : Nat} {content : Content}
    (unfolds : document.Unfolds computed id content) (enough : content.generations ≤ depth) :
    (convert document computed depth id).outcome = .ok content := by
  induction unfolds generalizing depth with
  | text found kind =>
    obtain ⟨depth, rfl⟩ := Nat.exists_eq_add_of_lt (Nat.lt_of_lt_of_le (generations_pos _) enough)
    simp [outcome_convert_succ, found, kind]
  | comment found kind =>
    obtain ⟨depth, rfl⟩ := Nat.exists_eq_add_of_lt (Nat.lt_of_lt_of_le (generations_pos _) enough)
    simp [outcome_convert_succ, found, kind, blank]
  | hidden found kind hidden =>
    obtain ⟨depth, rfl⟩ := Nat.exists_eq_add_of_lt (Nat.lt_of_lt_of_le (generations_pos _) enough)
    simp [outcome_convert_succ, found, kind, hidden, blank]
  | @element id node data style images found kind shown styled long each ih =>
    rw [generations] at enough
    obtain ⟨depth, rfl⟩ := Nat.exists_eq_add_of_lt (Nat.lt_of_lt_of_le (Nat.succ_pos _) enough)
    rw [Nat.zero_add] at enough ⊢
    have made : node.children.mapM (fun child => (convert document computed depth child).outcome) =
        .ok images := by
      refine mapM_eq_ok_iff.mpr ⟨long, fun place child image valued resulted => ?_⟩
      refine ih place child image valued resulted ?_
      have listed : image.behind (images.take place) ∈
          images.mapIdx fun place image => image.behind (images.take place) :=
        List.mem_of_getElem? (i := place) (by rw [List.getElem?_mapIdx, resulted]; rfl)
      have bound := generations_le_of_mem listed
      rw [generations_behind] at bound
      omega
    rw [outcome_convert_succ, found]
    simp only [kind, shown, Bool.false_eq_true, if_false]
    rw [← countSiblings_eq]
    exact outcomeOfElement_eq_ok_iff.mpr ⟨style, images, styled, made, rfl⟩

/-- A node has one unfolding at most. -/
theorem Document.Unfolds.unique {id : Nat} {first second : Content}
    (one : document.Unfolds computed id first) (other : document.Unfolds computed id second) :
    first = second := by
  have built := convert_of_unfolds one (Nat.le_max_left first.generations second.generations)
  rw [convert_of_unfolds other (Nat.le_max_right _ _)] at built
  exact (Except.ok.inj built).symm

/-! ### Generations and nodes -/

theorem Document.lt_size_of_get? {id : Nat} {node : Node} (found : document.get? id = some node) :
    id < document.size :=
  (Array.getElem?_eq_some_iff.mp found).1

theorem Document.Unfolds.lt_size {id : Nat} {content : Content}
    (unfolds : document.Unfolds computed id content) : id < document.size := by
  cases unfolds with
  | text found | comment found | hidden found | element found => exact lt_size_of_get? found

/-- On the way down to the deepest content there is one with each number of generations. -/
theorem Document.Unfolds.exists_generations {id : Nat} {content : Content}
    (unfolds : document.Unfolds computed id content) {count : Nat} (positive : 0 < count)
    (few : count ≤ content.generations) :
    ∃ lower image, document.Unfolds computed lower image ∧ image.generations = count := by
  induction unfolds with
  | text found kind => exact ⟨_, _, .text found kind, by rw [generations] at few ⊢; omega⟩
  | comment found kind => exact ⟨_, _, .comment found kind, by rw [generations] at few ⊢; omega⟩
  | hidden found kind hidden =>
    exact ⟨_, _, .hidden found kind hidden, by rw [generations] at few ⊢; omega⟩
  | @element id node data style images found kind shown styled long each ih =>
    rw [generations] at few
    -- The element itself has as many, or its deepest child has at least as many.
    rcases Nat.lt_or_eq_of_le few with fewer | equal
    · have below : images ≠ [] := by
        rintro rfl
        simp [generationsAll] at fewer
        omega
      have counted : (images.mapIdx fun place image => image.behind (images.take place)) ≠ [] := by
        simpa using below
      obtain ⟨deepest, member, most⟩ := exists_generations_eq counted
      obtain ⟨place, listed⟩ := List.mem_iff_getElem?.mp member
      rw [List.getElem?_mapIdx, Option.map_eq_some_iff] at listed
      obtain ⟨image, resulted, rfl⟩ := listed
      have inside : place < node.children.length := by
        rw [← long]
        exact (List.getElem?_eq_some_iff.mp resulted).1
      rw [generations_behind] at most
      exact ih place _ image (List.getElem?_eq_getElem inside) resulted (by omega)
    · exact ⟨id, _, .element found kind shown styled long each, by rw [generations, equal]⟩

/-- **An unfolding has no more generations than the document has nodes.** -/
theorem Document.Unfolds.generations_le {id : Nat} {content : Content}
    (unfolds : document.Unfolds computed id content) : content.generations ≤ document.size := by
  have level (count : Fin content.generations) : ∃ lower : Fin document.size, ∃ image,
      document.Unfolds computed lower image ∧ image.generations = count + 1 := by
    obtain ⟨lower, image, below, equal⟩ :=
      unfolds.exists_generations (Nat.succ_pos count) (Nat.succ_le_of_lt count.2)
    exact ⟨⟨lower, below.lt_size⟩, image, below, equal⟩
  choose node image below equal using level
  -- A node on two levels would unfold to contents with different numbers of generations.
  have different : Function.Injective node := by
    intro first second same
    have images := (below first).unique (same ▸ below second)
    have counts := equal first
    rw [images, equal second] at counts
    exact Fin.ext (Nat.succ.inj counts.symm)
  simpa using Fintype.card_le_of_injective node different

/-- **Building succeeds with a content just if the node unfolds to it.** -/
theorem ofDocument_eq_ok_iff {root : Nat} {content : Content} :
    (ofDocument document computed root).outcome = .ok content ↔
      document.Unfolds computed root content :=
  ⟨unfolds_of_convert, fun unfolds =>
    convert_of_unfolds unfolds (Nat.le_succ_of_le unfolds.generations_le)⟩

theorem Document.element?_eq_some_iff {id : Nat} {data : Element} :
    document.element? id = some data ↔
      ∃ node, document.get? id = some node ∧ node.kind = .element data := by
  rw [Document.element?]
  split
  · next found => simp [found]
  · next other =>
    refine iff_of_false nofun ?_
    rintro ⟨⟨kind, parent, below⟩, found, rfl⟩
    exact other data parent below found

/-- An element without children that is not hidden has nothing but its style. -/
theorem ofDocument_childless {id : Nat} {data : Element} {parent : Option Nat} {style : Style.Map}
    (found : document.get? id = some ⟨.element data, parent, []⟩)
    (shown : isHidden computed id data = false)
    (styled : (elementStyle computed id data).outcome = .ok style) :
    (ofDocument document computed id).outcome =
      .ok (.element ⟨Text.lower data.tag, data.attributes, style, 0⟩ []) :=
  ofDocument_eq_ok_iff.mpr (@Document.Unfolds.element _ _ _ _ _ _ [] found rfl shown styled rfl
    fun _ _ _ listed => nomatch listed)

/-! ### Documents without a node inside of itself -/

/-- That a node is a child of another. -/
def Document.IsAbove (document : Document) (above below : Nat) : Prop :=
  below ∈ document.children above

/-- **No node that the walk down from `root` comes to is inside of itself.** -/
def Document.AcyclicFrom (document : Document) (root : Nat) : Prop :=
  ∀ id, Relation.ReflTransGen document.IsAbove root id →
    ¬ Relation.TransGen document.IsAbove id id

/-- That building goes on from a node to another: the first is an element that is not hidden, and
the other is one of its children. -/
def Document.IsShownAbove (document : Document) (computed : Option ComputedStyle)
    (above below : Nat) : Prop :=
  (∃ data, document.element? above = some data ∧ isHidden computed above data = false) ∧
    document.IsAbove above below

/-- **No node that building comes to from `root` is inside of itself**, hidden elements and what is
in them aside. -/
def Document.AcyclicShownFrom (document : Document) (computed : Option ComputedStyle)
    (root : Nat) : Prop :=
  ∀ id, Relation.ReflTransGen (document.IsShownAbove computed) root id →
    ¬ Relation.TransGen (document.IsShownAbove computed) id id

theorem Document.AcyclicFrom.shown {root : Nat} (acyclic : document.AcyclicFrom root)
    (computed : Option ComputedStyle) : document.AcyclicShownFrom computed root := by
  have fewer : document.IsShownAbove computed ≤ document.IsAbove := fun _ _ step => step.2
  exact fun id reached around => acyclic id (Relation.ReflTransGen.mono fewer _ _ reached)
    (Relation.TransGen.mono fewer _ _ around)

/-- What leads to larger numbers only does not lead back. -/
theorem not_transGen_of_lt {R : Nat → Nat → Prop} (growing : ∀ above below, R above below →
    above < below) (id : Nat) : ¬ Relation.TransGen R id id := by
  intro around
  have larger := Relation.TransGen.mono (p := (· < ·)) growing _ _ around
  rw [Relation.transGen_eq_self] at larger
  exact Nat.lt_irrefl id larger

theorem Document.AcyclicFrom.of_lt
    (growing : ∀ above below, document.IsAbove above below → above < below) (root : Nat) :
    document.AcyclicFrom root :=
  fun id _ => not_transGen_of_lt growing id

theorem Document.AcyclicShownFrom.of_lt
    (growing : ∀ above below, document.IsShownAbove computed above below → above < below)
    (root : Nat) : document.AcyclicShownFrom computed root :=
  fun id _ => not_transGen_of_lt growing id

/-- **What holds of a number with one more generation, if it holds of those below it, holds of a
root with as many generations as there are numbers.** Above each number on the way down are numbers
different from it, so that generations run out no earlier than numbers. -/
theorem of_generations_of_acyclic {R : Nat → Nat → Prop} {size : Nat} {motive : Nat → Nat → Prop}
    (within : ∀ above below, R above below → below < size)
    (step : ∀ depth id, (∀ child, R id child → motive depth child) → motive (depth + 1) id)
    {root : Nat} (inside : root < size)
    (acyclic : ∀ id, Relation.ReflTransGen R root id → ¬ Relation.TransGen R id id) :
    motive size root := by
  suffices descends : ∀ (depth id : Nat) (above : Finset Nat), Relation.ReflTransGen R root id →
      id < size → (∀ upper ∈ above, upper < size ∧ Relation.TransGen R upper id) →
      size ≤ depth + above.card → motive depth id from
    descends size root ∅ Relation.ReflTransGen.refl inside
      (fun _ member => absurd member (Finset.notMem_empty _)) (by simp)
  intro depth
  induction depth with
  | zero =>
    intro id above reached inside higher enough
    have new : id ∉ above := fun old => acyclic id reached (higher id old).2
    have few : insert id above ⊆ Finset.range size := by
      intro upper listed
      rcases Finset.mem_insert.mp listed with rfl | old
      · exact Finset.mem_range.mpr inside
      · exact Finset.mem_range.mpr (higher upper old).1
    have count := Finset.card_le_card few
    rw [Finset.card_insert_of_notMem new, Finset.card_range] at count
    omega
  | succ depth ih =>
    intro id above reached inside higher enough
    refine step depth id fun child below => ?_
    -- The number joins those above its child. It is new among them, as it is not above itself.
    have new : id ∉ above := fun old => acyclic id reached (higher id old).2
    refine ih child (insert id above) (reached.tail below) (within id child below) ?_ ?_
    · intro upper listed
      rcases Finset.mem_insert.mp listed with rfl | old
      · exact ⟨inside, Relation.TransGen.single below⟩
      · exact ⟨(higher upper old).1, (higher upper old).2.tail below⟩
    · rw [Finset.card_insert_of_notMem new]
      omega

/-- **Where only numbers below some number lead on, what so holds of those below holds of any root**
with one generation more. The last generation is for numbers that lead nowhere. -/
theorem of_generations_succ_of_acyclic {R : Nat → Nat → Prop} {size : Nat}
    {motive : Nat → Nat → Prop} (within : ∀ above below, R above below → above < size)
    (step : ∀ depth id, (∀ child, R id child → motive depth child) → motive (depth + 1) id)
    {root : Nat}
    (acyclic : ∀ id, Relation.ReflTransGen R root id → ¬ Relation.TransGen R id id) :
    motive (size + 1) root := by
  have missing {depth id : Nat} (beyond : ¬ id < size) : motive (depth + 1) id :=
    step depth id fun child below => absurd (within id child below) beyond
  by_cases inside : root < size
  · let Goes (above below : Nat) : Prop := R above below ∧ below < size
    have fewer : Goes ≤ R := fun _ _ goes => goes.1
    refine of_generations_of_acyclic (R := Goes) (motive := fun depth => motive (depth + 1))
      (fun _ _ goes => goes.2) ?_ inside fun id reached around => ?_
    · intro depth id below
      refine step (depth + 1) id fun child goes => ?_
      by_cases listed : child < size
      · exact below child ⟨goes, listed⟩
      · exact missing listed
    · exact acyclic id (Relation.ReflTransGen.mono fewer _ _ reached)
        (Relation.TransGen.mono fewer _ _ around)
  · exact missing inside

theorem Document.lt_size_of_isAbove {above below : Nat} (lists : document.IsAbove above below) :
    above < document.size := by
  by_contra beyond
  rw [IsAbove, children_eq, get?_of_ge (Nat.le_of_not_lt beyond)] at lists
  exact absurd lists List.not_mem_nil

/-- **What holds of a node with one more generation, if it holds of the children that building goes
on to, holds of a root with more generations than there are nodes.** -/
theorem Document.AcyclicShownFrom.of_generations {motive : Nat → Nat → Prop}
    (step : ∀ depth id, (∀ child, document.IsShownAbove computed id child → motive depth child) →
      motive (depth + 1) id)
    {root : Nat} (acyclic : document.AcyclicShownFrom computed root) :
    motive (document.size + 1) root :=
  of_generations_succ_of_acyclic (fun _ _ shows => lt_size_of_isAbove shows.2) step acyclic

theorem Document.isShownAbove_of_mem {id child : Nat} {node : Node} {data : Element}
    (found : document.get? id = some node) (kind : node.kind = .element data)
    (shown : isHidden computed id data = false) (listed : child ∈ node.children) :
    document.IsShownAbove computed id child := by
  refine ⟨⟨data, Document.element?_eq_some_iff.mpr ⟨node, found, kind⟩, shown⟩, ?_⟩
  rw [Document.IsAbove, Document.children, found]
  exact listed

theorem outcome_elementStyle_ne_endless (id : Nat) (data : Element) :
    (elementStyle computed id data).outcome ≠ .error .endless := by
  rw [outcome_elementStyle]
  cases withComputed computed id (attributeStyle data).value <;> simp [Except.mapError]

/-- **Building breaks off as endless only where a node is inside of itself** on the way. -/
theorem ofDocument_ne_endless_of_shown {root : Nat}
    (acyclic : document.AcyclicShownFrom computed root) :
    (ofDocument document computed root).outcome ≠ .error .endless := by
  refine acyclic.of_generations
    (motive := fun depth id => (convert document computed depth id).outcome ≠ .error .endless) ?_
  intro depth id below
  rw [outcome_convert_succ]
  cases found : document.get? id with
  | none => simp
  | some node =>
    cases kind : node.kind with
    | element data =>
      simp only [kind]
      split
      · simp
      · next shown =>
        intro failed
        rcases outcomeOfElement_eq_error failed with styled | ⟨child, listed, fails⟩
        · exact outcome_elementStyle_ne_endless id data styled
        · exact below child (Document.isShownAbove_of_mem found kind
            (Bool.not_eq_true _ ▸ shown) listed) fails
    | _ => simp [kind]

theorem ofDocument_ne_endless {root : Nat} (acyclic : document.AcyclicFrom root) :
    (ofDocument document computed root).outcome ≠ .error .endless :=
  ofDocument_ne_endless_of_shown (acyclic.shown computed)

end PagedHtml
