/-
**An outline can be filled in one pass over the document.**

`Outline.fill` walks down a document and appends one entry after another. The entry of an element is
made before those of its children, without any children and with nothing counted, and is completed
when they are done: first each child learns how many elements with its tag come before it, then the
element learns the numbers of its children.

* `countTags_append`: completing the children that were appended last counts them as siblings;
* `run_fill`: filling behind some entries appends the entries of the content that
  `Content.convert` builds, with the same diagnostics, or ends with the same error;
* `run_fill_ofDocument`: filling from nothing gives the outline of the content of a document.
-/

import PagedHtml.Content.Building
import PagedHtml.Content.Outline

namespace PagedHtml.Outline

/-- Work on the entries made so far. -/
abbrev Filling := StateT (Array Entry) Building

/-- Appends an entry, whose number is the number of entries before it. -/
def push (entry : Entry) : Filling Nat := fun entries => pure (entries.size, entries.push entry)

/-- An element that comes behind `count` siblings with its tag. -/
def Entry.withIndex (count : Nat) : Entry → Entry
  | text content => text content
  | element data parent children => element { data with indexOfType := count } parent children

/-- An element with the given children. -/
def Entry.withChildren (children : List Nat) : Entry → Entry
  | text content => text content
  | element data parent _ => element data parent children

/-- Tells each of some siblings how many with its tag come before it; `before` holds the tags of
those already told. -/
def countTags (before : List String) : List Nat → Array Entry → Array Entry
  | [], entries => entries
  | id :: rest, entries =>
    match entries[id]? with
    | some (.element data _ _) =>
      countTags (data.tag :: before) rest
        (entries.modify id (Entry.withIndex (before.count data.tag)))
    | _ => countTags before rest entries

/-- Appends the entries of a node and what is below it, down to `depth` generations. -/
def fill (document : Document) (computed : Option ComputedStyle) :
    (depth : Nat) → (parent : Option Nat) → (id : Nat) → Filling Nat
  | 0, _, _ => throw .endless
  | depth + 1, parent, id =>
    match document.get? id with
    | none => throw (.unsupportedKind "missing")
    | some node =>
      match node.kind with
      | .text content => push (.text content)
      | .comment _ => push (.text "")
      | .element data =>
        if Content.isHidden computed id data then push (.text "")
        else do
          let style ← Content.elementStyle computed id data
          let this ← push (.element ⟨Text.lower data.tag, data.attributes, style, 0⟩ parent [])
          let children ← node.children.mapM (fill document computed depth (some this))
          modify fun entries =>
            (countTags [] children entries).modify this (Entry.withChildren children)
          return this
      | kind => throw (.unsupportedKind kind.label)

/-! ### Completing entries -/

theorem modify_append (front : Array Entry) (entry : Entry) (behind : List Entry)
    (change : Entry → Entry) :
    (front ++ (entry :: behind).toArray).modify front.size change =
      front ++ (change entry :: behind).toArray := by
  obtain ⟨front⟩ := front
  apply Array.ext'
  rw [Array.toList_modify, Array.toList_append, Array.toList_append]
  show (front ++ entry :: behind).modify front.length change = front ++ change entry :: behind
  induction front with
  | nil => rfl
  | cons first front ih => rw [List.cons_append, List.length_cons, List.modify_succ_cons, ih]; rfl

theorem siblingIds_countFrom (before : List String) (id : Nat) (siblings : List Content) :
    Content.siblingIds id (Content.countFrom before siblings) = Content.siblingIds id siblings := by
  induction siblings generalizing before id with
  | nil => rfl
  | cons first rest ih =>
    cases first with
    | text content => rw [Content.countFrom, Content.siblingIds, Content.siblingIds, ih]
    | element data children =>
      rw [Content.countFrom, Content.siblingIds, Content.siblingIds, ih]
      rfl

/-- **Completing the children that were appended last counts them as siblings.** -/
theorem countTags_append (before : List String) (parent : Option Nat) (front : Array Entry)
    (siblings : List Content) :
    countTags before (Content.siblingIds front.size siblings)
        (front ++ (Content.entriesAll parent front.size siblings).toArray) =
      front ++
        (Content.entriesAll parent front.size (Content.countFrom before siblings)).toArray := by
  induction siblings generalizing before front with
  | nil => rfl
  | cons first rest ih =>
    cases first with
    | text content =>
      have next := ih before (front.push (.text content))
      rw [Content.siblingIds, countTags]
      simp only [Content.entriesAll, Content.entries, Content.countFrom]
      simpa [Content.size] using next
    | element data children =>
      have counted := modify_append front (.element data parent (Content.siblingIds
        (front.size + 1) children))
        (Content.entriesAll (some front.size) (front.size + 1) children ++
          Content.entriesAll parent (front.size + (Content.element data children).size) rest)
        (Entry.withIndex (before.count data.tag))
      have next := ih (data.tag :: before) (front ++ (Content.entries parent front.size
        (.element { data with indexOfType := before.count data.tag } children)).toArray)
      have here : (front ++ (Content.entriesAll parent front.size
          (Content.element data children :: rest)).toArray)[front.size]? =
            some (.element data parent (Content.siblingIds (front.size + 1) children)) := by
        simp [Content.entriesAll, Content.entries]
      rw [Content.siblingIds, countTags, here]
      simp only [Content.entriesAll, Content.entries, Content.countFrom, List.cons_append] at next ⊢
      rw [counted]
      simpa [Content.size, Entry.withIndex, Content.length_entriesAll, Nat.add_assoc,
        Nat.add_comm 1] using next

/-! ### The pass -/

section

variable {document : Document} {computed : Option ComputedStyle}

@[simp] theorem run_push (entry : Entry) (entries : Array Entry) :
    (push entry).run entries = pure (entries.size, entries.push entry) := rfl

/-- What filling does for a content that is built: its entries are appended. -/
def appended (parent : Option Nat) (entries : Array Entry) (content : Content) :
    Nat × Array Entry :=
  (entries.size, entries ++ (content.entries parent entries.size).toArray)

/-- What filling does for siblings. -/
def appendedAll (parent : Option Nat) (entries : Array Entry) (siblings : List Content) :
    List Nat × Array Entry :=
  (Content.siblingIds entries.size siblings,
    entries ++ (Content.entriesAll parent entries.size siblings).toArray)

/-- An element is complete when its children are counted and it knows their numbers. -/
theorem complete_appendedAll (data : StyledElement) (parent : Option Nat) (entries : Array Entry)
    (siblings : List Content) :
    let all := appendedAll (some entries.size) (entries.push (.element data parent [])) siblings
    (countTags [] all.1 all.2).modify entries.size (Entry.withChildren all.1) =
      (appended parent entries (.element data (Content.countSiblings siblings))).2 := by
  have counted := countTags_append [] (some entries.size)
    (entries.push (.element data parent [])) siblings
  have completed := modify_append entries (.element data parent [])
    (Content.entriesAll (some entries.size) (entries.size + 1) (Content.countSiblings siblings))
    (Entry.withChildren (Content.siblingIds (entries.size + 1) siblings))
  have ids : Content.siblingIds (entries.size + 1) (Content.countSiblings siblings) =
      Content.siblingIds (entries.size + 1) siblings := siblingIds_countFrom _ _ _
  simp only [appendedAll, appended, Content.entries]
  rw [counted, Array.size_push, ids]
  simpa [Content.countSiblings, Entry.withChildren] using completed

/-- Filling for several nodes, where it is known for each of them. -/
theorem run_mapM_fill {depth : Nat} {parent : Option Nat}
    (each : ∀ id entries, (fill document computed depth parent id).run entries =
      appended parent entries <$> Content.convert document computed depth id)
    (ids : List Nat) (entries : Array Entry) :
    (ids.mapM (fill document computed depth parent)).run entries =
      appendedAll parent entries <$> ids.mapM (Content.convert document computed depth) := by
  induction ids generalizing entries with
  | nil => simp [appendedAll, Content.siblingIds, Content.entriesAll]
  | cons id rest ih =>
    rw [List.mapM_cons, List.mapM_cons, StateT.run_bind, each, map_bind, bind_map_left]
    congr 1
    funext content
    rw [StateT.run_bind, appended, ih, map_bind, bind_map_left]
    congr 1
    funext siblings
    simp [appendedAll, Content.siblingIds, Content.entriesAll, Content.length_entries]

/-- **Filling behind some entries appends the entries of the content that is built.** -/
theorem run_fill (depth : Nat) (parent : Option Nat) (id : Nat) (entries : Array Entry) :
    (fill document computed depth parent id).run entries =
      appended parent entries <$> Content.convert document computed depth id := by
  induction depth generalizing parent id entries with
  | zero => rfl
  | succ depth ih =>
    rw [fill, Content.convert]
    cases document.get? id with
    | none => rfl
    | some node =>
      cases kind : node.kind with
      | document => simp only [kind]; rfl
      | doctype name => simp only [kind]; rfl
      | text content => simp only [kind]; rfl
      | comment content => simp only [kind]; rfl
      | element data =>
        simp only [kind]
        by_cases hidden : Content.isHidden computed id data = true
        · rw [if_pos hidden, if_pos hidden]
          rfl
        · rw [if_neg hidden, if_neg hidden, StateT.run_bind, map_bind]
          rw [StateT.run_monadLift, bind_assoc]
          refine bind_congr fun style => ?_
          rw [pure_bind, StateT.run_bind, run_push, pure_bind, StateT.run_bind,
            run_mapM_fill (fun id entries => ih _ id entries), bind_map_left, map_bind]
          refine bind_congr fun siblings => ?_
          -- The children are done; what is left of both sides is the entry of the element.
          have completed := complete_appendedAll
            ⟨Text.lower data.tag, data.attributes, style, 0⟩ parent entries siblings
          exact congrArg (fun after => (pure (entries.size, after) : Building _)) completed

/-- **Filling from nothing gives the outline of the content of a document.** -/
theorem run_fill_ofDocument (root : Nat) :
    (fill document computed (document.size + 1) none root).run #[] =
      (fun content => (Outline.root, content.outline.entries)) <$>
        Content.ofDocument document computed root := by
  rw [run_fill, Content.ofDocument]
  refine congrArg (· <$> _) (funext fun content => ?_)
  simp [appended, Content.outline, Outline.root]

end

end PagedHtml.Outline
