/-
**Who draws the edges in a table where borders collapse.**

A cell takes over the borders of the nearest table around it. Where borders collapse it draws no
right and bottom edge, and it draws the edges that it shares with the cells before it unless it
knows of no such cell (`drawsEdges_cellBase`). What a cell knows is the number of siblings with its
own tag, so that the first data cell behind a header cell counts as a first one.

* `render_cell`: what a cell is rendered as, in any table;
* `indexOfType_cell`: what a cell of a row knows, by the cells of the row before it;
* `collapsed_edges`: the edges that all cells of a row draw. These are all but the left and top
  edges of the first cell exactly if the cells of the row have one tag.
-/

import PagedHtml.Proofs.Content.Ancestry
import PagedHtml.Proofs.Content.Counting
import PagedHtml.Proofs.Render.Gathering

namespace PagedHtml

namespace Outline

/-- The tag of an element. -/
def tag? (outline : Outline) (id : Nat) : Option String :=
  (outline.element? id).map StyledElement.tag

/-- Whether an element is a cell. -/
def isCell (outline : Outline) (id : Nat) : Bool :=
  outline.tag? id == some "td" || outline.tag? id == some "th"

/-- The cells right in an element, in order. -/
def cells (outline : Outline) (row : Nat) : List Nat := (outline.children row).filter outline.isCell

variable {outline : Outline} {id : Nat} {data : StyledElement}

theorem isCell_iff (known : outline.element? id = some data) :
    outline.isCell id = true ↔ data.tag = "td" ∨ data.tag = "th" := by
  unfold isCell tag?
  rw [known, Option.map_some, Bool.or_eq_true, beq_iff_eq, beq_iff_eq, Option.some_inj,
    Option.some_inj]

theorem exists_element?_of_isCell (isCell : outline.isCell id = true) :
    ∃ data, outline.element? id = some data := by
  cases known : outline.element? id with
  | none =>
    rw [Outline.isCell, tag?, known] at isCell
    cases isCell
  | some data => exact ⟨data, rfl⟩

/-- The nearest element with a tag is the first of a chain that has it. -/
theorem find?_chain (outline : Outline) (id : Nat) (tag : String) :
    (outline.chain id).find? (fun data => data.tag == tag) =
      (outline.closest? id tag).bind outline.element? :=
  List.find?_filterMap

/-- From a cell, the nearest table is looked for in what is around its row. -/
theorem find?_chain_cell (tree : outline.IsTree) {row : Nat}
    (listed : id ∈ outline.children row) (known : outline.element? id = some data)
    (isCell : outline.isCell id = true) :
    (data :: outline.above id).find? (fun other => other.tag == "table") =
      (outline.closest? row "table").bind outline.element? := by
  have parent := (tree.parent_iff id data known row).mpr listed
  have notTable : (data.tag == "table") = false := by
    rcases (isCell_iff known).mp isCell with named | named
    · rw [named]
      rfl
    · rw [named]
      rfl
  rw [List.find?_cons, notTable, tree.above_eq, parent]
  exact find?_chain outline row "table"

end Outline

/-! ### Counting cells -/

/-- What has a place among those that are kept has one among all, and those kept before it are
kept of those before it. -/
theorem getElem?_filter_eq_some {α : Type} {keep : α → Bool} {list : List α} {step : Nat} {a : α}
    (taken : (list.filter keep)[step]? = some a) :
    ∃ place : Nat, list[place]? = some a ∧
      (list.take place).filter keep = (list.filter keep).take step := by
  induction list generalizing step with
  | nil => cases taken
  | cons first rest ih =>
    by_cases kept : keep first = true
    · rw [List.filter_cons_of_pos kept] at taken ⊢
      cases step with
      | zero => exact ⟨0, taken, rfl⟩
      | succ step =>
        obtain ⟨place, found, same⟩ := ih taken
        refine ⟨place + 1, found, ?_⟩
        rw [List.take_succ_cons, List.filter_cons_of_pos kept, same, List.take_succ_cons]
    · rw [List.filter_cons_of_neg kept] at taken ⊢
      obtain ⟨place, found, same⟩ := ih taken
      refine ⟨place + 1, found, ?_⟩
      rw [List.take_succ_cons, List.filter_cons_of_neg kept, same]

/-- If just the first of a list has none like it before it, all are alike. -/
theorem forall_eq_of_any_take {β : Type} [BEq β] [LawfulBEq β] {list : List Nat} {f : Nat → β}
    (each : ∀ step a, list[step]? = some a →
      ((list.take step).any fun earlier => f earlier == f a) = decide (step ≠ 0)) :
    ∀ a ∈ list, ∀ b ∈ list, f a = f b := by
  suffices first : ∀ step a, list[step]? = some a → list.head?.map f = some (f a) by
    intro a member b also
    obtain ⟨step, taken⟩ := List.mem_iff_getElem?.mp member
    obtain ⟨next, here⟩ := List.mem_iff_getElem?.mp also
    exact Option.some.inj ((first step a taken).symm.trans (first next b here))
  intro step
  induction step using Nat.strongRecOn with
  | ind step ih =>
    intro a taken
    by_cases zero : step = 0
    · subst zero
      rw [List.head?_eq_getElem?, taken, Option.map_some]
    · have known := each step a taken
      rw [decide_eq_true zero, List.any_eq_true] at known
      obtain ⟨earlier, member, same⟩ := known
      obtain ⟨place, inside, rfl⟩ := List.mem_take_iff_getElem.mp member
      rw [ih place (by omega) _ (List.getElem?_eq_getElem (by omega)), eq_of_beq same]

namespace Content

variable {document : Document} {computed : Option ComputedStyle} {root : Nat} {content : Content}

/-- **A cell counts the cells before it in its row that have its own tag.** -/
theorem indexOfType_cell (built : (ofDocument document computed root).outcome = .ok content)
    {row step cell : Nat} {data : StyledElement}
    (taken : (content.outline.cells row)[step]? = some cell)
    (known : content.outline.element? cell = some data) :
    data.indexOfType = ((content.outline.cells row).take step).countP
      fun earlier => content.outline.tag? earlier == content.outline.tag? cell := by
  obtain ⟨place, listed, before⟩ := getElem?_filter_eq_some taken
  have isCell := (List.mem_filter.mp (List.mem_of_getElem? taken)).2
  rw [indexOfType_outline built listed known, Outline.cells, ← before, List.countP_filter]
  congr 1
  funext earlier
  have same : ((content.outline.element? earlier).any fun other => other.tag == data.tag) =
      (content.outline.tag? earlier == content.outline.tag? cell) := by
    unfold Outline.tag?
    rw [known]
    cases content.outline.element? earlier <;> rfl
  rw [same]
  by_cases alike : (content.outline.tag? earlier == content.outline.tag? cell) = true
  · -- whatever has the tag of a cell is a cell of the row itself
    rw [alike, Outline.isCell, eq_of_beq alike, ← Outline.isCell, isCell]
    rfl
  · rw [eq_false_of_ne_true alike]
    rfl

end Content

namespace Render

/-! ### Edges -/

theorem get?_copyValue (source target property : Style.Property) (origin style : Style.Map) :
    (copyValue source target origin style).get? property =
      if property = target then (origin.get? source).or (style.get? property)
      else style.get? property := by
  unfold copyValue
  cases origin.get? source with
  | none => exact (ite_self _).symm
  | some value => rfl

/-- **That a style draws edges as those in the middle of a table do**: no right and bottom edge, and
left and top edges of some width if they are shared, and otherwise none of its own. -/
structure DrawsEdges (width : Style.Value) (shared : Bool) (style : Style.Map) : Prop where
  right : style.get? .borderRightWidth = some (.ofNat 0)
  bottom : style.get? .borderBottomWidth = some (.ofNat 0)
  left : style.get? .borderLeftWidth = if shared then some width else none
  top : style.get? .borderTopWidth = if shared then some width else none

/-- A style draws shared edges or does not. -/
theorem DrawsEdges.unique {width : Style.Value} {shared other : Bool} {style : Style.Map}
    (draws : DrawsEdges width shared style) (also : DrawsEdges width other style) :
    shared = other := by
  have same := draws.left.symm.trans also.left
  cases shared <;> cases other <;> first | rfl | cases same

theorem drawsEdges_cellBase {table : Style.Map} {width : Style.Value}
    (collapses : separatesCells table = false) (set : table.get? .borderWidth = some width)
    (isFirst : Bool) : DrawsEdges width (!isFirst) (cellBase table isFirst) := by
  unfold cellBase
  rw [if_neg (Bool.not_eq_true _ ▸ collapses)]
  cases isFirst with
  | true => constructor <;> simp [get?_copyValue]
  | false => constructor <;> simp [get?_copyValue, set]

/-! ### What a cell is rendered as -/

theorem dispatch_cell {context : Context}
    (isCell : context.element.tag = "td" ∨ context.element.tag = "th") :
    Registry.standard.dispatch context = cell context := by
  unfold Registry.dispatch
  rcases isCell with named | named
  · rw [named]
    rfl
  · rw [named]
    rfl

/-- A cell begins its styles with what it takes over from the nearest table. -/
theorem cell_of_nearest {context : Context} {table : StyledElement}
    (nearest : (context.element :: context.around).find? (fun other => other.tag == "table") =
      some table) :
    cell context = context.children.map fun inside =>
      .container (cellBase table.style (context.element.indexOfType == 0) ::
        context.style ++ [spanStyle context.element]) inside := by
  unfold cell
  rw [show Tag.table.name = "table" from rfl, nearest]
  cases context.children <;> rfl

theorem render_cell {composer : Composer} (usual : composer.registry = Registry.standard)
    (rules : List StyleRule) {around : List StyledElement} (id : Nat) {data table : StyledElement}
    (isCell : data.tag = "td" ∨ data.tag = "th")
    (nearest : (data :: around).find? (fun other => other.tag == "table") = some table)
    (children : List Content) :
    composer.render rules around id (.element data children) =
      ((composer.renderAll rules (data :: around) (id + 1) children).map
        (Composer.arrange data children)).map fun inside =>
          .container (cellBase table.style (data.indexOfType == 0) ::
            composer.cascade rules data around ++ [spanStyle data]) inside := by
  rw [Composer.render, usual]
  exact (dispatch_cell isCell).trans (cell_of_nearest nearest)

/-- **What a cell begins its styles with**, whatever else applies to it and whatever is in it. -/
def IsBase (outline : Outline) (cell : Nat) (base : Style.Map) : Prop :=
  ∀ (composer : Composer) (rules : List StyleRule) (data : StyledElement) (children : List Content),
    composer.registry = Registry.standard → outline.element? cell = some data →
    composer.render rules (outline.above cell) cell (.element data children) =
      ((composer.renderAll rules (data :: outline.above cell) (cell + 1) children).map
        (Composer.arrange data children)).map fun inside =>
          .container (base :: composer.cascade rules data (outline.above cell) ++ [spanStyle data])
            inside

section

variable {outline : Outline} {cell row table : Nat} {data tableData : StyledElement}
  {base other : Style.Map}

theorem IsBase.unique (isBase : IsBase outline cell base)
    (known : outline.element? cell = some data) (also : IsBase outline cell other) :
    other = base := by
  let composer : Composer := ⟨Registry.standard, outline, false, false, [], .empty⟩
  have shown := isBase composer [] data [] rfl known
  rw [also composer [] data [] rfl known] at shown
  injection shown with same
  injection same with styles
  exact (List.cons.inj styles).1

/-- A cell begins its styles with what it takes over from the table around its row. -/
theorem isBase_cellBase (tree : outline.IsTree) (listed : cell ∈ outline.children row)
    (isCell : outline.isCell cell = true) (known : outline.element? cell = some data)
    (inTable : outline.closest? row "table" = some table)
    (isTable : outline.element? table = some tableData) :
    IsBase outline cell (cellBase tableData.style (data.indexOfType == 0)) := by
  intro composer rules same children usual also
  obtain rfl := Option.some.inj (known.symm.trans also)
  refine render_cell usual rules cell ((Outline.isCell_iff known).mp isCell) ?_ children
  rw [Outline.find?_chain_cell tree listed known isCell, inTable]
  exact isTable

end

/-! ### Rows -/

section

variable {document : Document} {computed : Option ComputedStyle} {root : Nat} {content : Content}
  {row table : Nat} {tableData : StyledElement} {width : Style.Value}

/-- **A cell of a row draws the edges that it shares if a cell before it has its tag.** -/
theorem exists_base_of_cell
    (built : (Content.ofDocument document computed root).outcome = .ok content)
    (inTable : content.outline.closest? row "table" = some table)
    (isTable : content.outline.element? table = some tableData)
    (collapses : separatesCells tableData.style = false)
    (set : tableData.style.get? .borderWidth = some width) {step cell : Nat}
    (taken : (content.outline.cells row)[step]? = some cell) :
    ∃ base, (∀ other, IsBase content.outline cell other ↔ other = base) ∧
      DrawsEdges width (((content.outline.cells row).take step).any fun earlier =>
        content.outline.tag? earlier == content.outline.tag? cell) base := by
  obtain ⟨listed, isCell⟩ := List.mem_filter.mp (List.mem_of_getElem? taken)
  obtain ⟨data, known⟩ := Outline.exists_element?_of_isCell isCell
  have isBase := isBase_cellBase content.isTree_outline listed isCell known inTable isTable
  refine ⟨_, fun other => ⟨fun also => isBase.unique known also, ?_⟩, ?_⟩
  · rintro rfl
    exact isBase
  · have isFirst : (data.indexOfType == 0) = !((content.outline.cells row).take step).any
        fun earlier => content.outline.tag? earlier == content.outline.tag? cell := by
      rw [Bool.eq_iff_iff, beq_iff_eq, Bool.not_eq_true', List.any_eq_false,
        Content.indexOfType_cell built taken known, List.countP_eq_zero]
    have draws := drawsEdges_cellBase collapses set (data.indexOfType == 0)
    rw [isFirst, Bool.not_not] at draws
    rw [isFirst]
    exact draws

/-- **The edges of the cells of a row** in a table that does not separate them and sets the width of
its borders: no cell draws a right or bottom edge, and a cell draws the left and top edge exactly if
a cell before it in its row has its tag. So all cells but the first draw these, and the first does
not, exactly if the cells of the row have one tag. -/
theorem collapsed_edges (built : (Content.ofDocument document computed root).outcome = .ok content)
    (inTable : content.outline.closest? row "table" = some table)
    (isTable : content.outline.element? table = some tableData)
    (collapses : separatesCells tableData.style = false)
    (set : tableData.style.get? .borderWidth = some width) :
    let outline := content.outline
    let cells := outline.cells row
    (∀ step cell, cells[step]? = some cell →
      ∃ base, (∀ other, IsBase outline cell other ↔ other = base) ∧
        DrawsEdges width
          ((cells.take step).any fun earlier => outline.tag? earlier == outline.tag? cell) base) ∧
    ((∀ step cell, cells[step]? = some cell →
        ∃ base, IsBase outline cell base ∧ DrawsEdges width (decide (step ≠ 0)) base) ↔
      ∀ cell ∈ cells, ∀ other ∈ cells, outline.tag? cell = outline.tag? other) := by
  intro outline cells
  have each (step cell : Nat) (taken : cells[step]? = some cell) :=
    exists_base_of_cell built inTable isTable collapses set taken
  refine ⟨each, fun asked => ?_, fun alike step cell taken => ?_⟩
  · refine forall_eq_of_any_take fun step cell taken => ?_
    obtain ⟨base, alone, draws⟩ := each step cell taken
    obtain ⟨other, isBase, also⟩ := asked step cell taken
    rw [(alone other).mp isBase] at also
    exact draws.unique also
  · obtain ⟨base, alone, draws⟩ := each step cell taken
    refine ⟨base, (alone base).mpr rfl, ?_⟩
    have same : (cells.take step).any (fun earlier => outline.tag? earlier == outline.tag? cell) =
        decide (step ≠ 0) := by
      by_cases zero : step = 0
      · subst zero
        rfl
      · rw [decide_eq_true zero, List.any_eq_true]
        obtain ⟨inside, -⟩ := List.getElem?_eq_some_iff.mp taken
        have first : cells[0] ∈ cells.take step :=
          List.mem_take_iff_getElem.mpr ⟨0, by omega, rfl⟩
        exact ⟨_, first, beq_iff_eq.mpr
          (alike _ (List.mem_of_mem_take first) cell (List.mem_of_getElem? taken))⟩
    rwa [same] at draws

end

/-! ### Two cells -/

/-- Whether the number `1` has a row with two cells of some tags, in a table with the number `0`
that collapses its borders and sets a width for them. -/
def holdsTwoCells (first second width : String) (content : Content) : Bool :=
  content.outline.tag? 1 == some "tr" && content.outline.cells 1 == [2, 3] &&
    content.outline.tag? 2 == some first && content.outline.tag? 3 == some second &&
    content.outline.closest? 1 "table" == some 0 &&
    (content.outline.element? 0).any fun table =>
      !separatesCells table.style && table.style.get? .borderWidth == some (.text width)

theorem exists_of_holdsTwoCells (first second width : String) (result : Except BuildError Content)
    (checked : result.toOption.any (holdsTwoCells first second width) = true) :
    ∃ content table, result = .ok content ∧ content.outline.tag? 1 = some "tr" ∧
      content.outline.cells 1 = [2, 3] ∧ content.outline.tag? 2 = some first ∧
      content.outline.tag? 3 = some second ∧ content.outline.closest? 1 "table" = some 0 ∧
      content.outline.element? 0 = some table ∧ separatesCells table.style = false ∧
      table.style.get? .borderWidth = some (.text width) := by
  cases result with
  | error => cases checked
  | ok content =>
    simp only [Except.toOption, Option.any_some, holdsTwoCells, Bool.and_eq_true, beq_iff_eq,
      Option.any_eq_true, Bool.not_eq_true'] at checked
    obtain ⟨⟨⟨⟨⟨isRow, cells⟩, isFirst⟩, isSecond⟩, inTable⟩, table, isTable, collapses, set⟩ :=
      checked
    exact ⟨content, table, rfl, isRow, cells, isFirst, isSecond, inTable, isTable, collapses, set⟩

/-- The second of two data cells draws the edges that it shares with the first. -/
theorem collapsed_edges_alike :
    let document : Document := ⟨#[
      ⟨.element ⟨"table", .ofList [("style", "border-width:1px")]⟩, none, [1]⟩,
      ⟨.element ⟨"tr", .empty⟩, some 0, [2, 3]⟩, ⟨.element ⟨"td", .empty⟩, some 1, []⟩,
      ⟨.element ⟨"td", .empty⟩, some 1, []⟩]⟩
    ∃ content, (Content.ofDocument document none 0).outcome = .ok content ∧
      content.outline.cells 1 = [2, 3] ∧
      ∃ base, IsBase content.outline 3 base ∧ DrawsEdges (.text "1px") true base := by
  intro document
  obtain ⟨content, table, built, -, cells, isFirst, isSecond, inTable, isTable, collapses, set⟩ :=
    exists_of_holdsTwoCells "td" "td" "1px" (Content.ofDocument document none 0).outcome
      (by decide +kernel)
  obtain ⟨-, same⟩ := collapsed_edges built inTable isTable collapses set
  rw [cells] at same
  refine ⟨content, built, cells, same.mpr (fun cell member other also => ?_) 1 3 rfl⟩
  have tagged : ∀ id ∈ [2, 3], content.outline.tag? id = some "td" :=
    List.forall_mem_cons.mpr ⟨isFirst, List.forall_mem_singleton.mpr isSecond⟩
  rw [tagged cell member, tagged other also]

/-- **A data cell behind a header cell does not draw the edges that they share.** -/
theorem edges_behind_header :
    let document : Document := ⟨#[
      ⟨.element ⟨"table", .ofList [("style", "border-width:1px")]⟩, none, [1]⟩,
      ⟨.element ⟨"tr", .empty⟩, some 0, [2, 3]⟩, ⟨.element ⟨"th", .empty⟩, some 1, []⟩,
      ⟨.element ⟨"td", .empty⟩, some 1, []⟩]⟩
    ∃ content table, (Content.ofDocument document none 0).outcome = .ok content ∧
      content.outline.tag? 1 = some "tr" ∧ content.outline.closest? 1 "table" = some 0 ∧
      content.outline.element? 0 = some table ∧ separatesCells table.style = false ∧
      table.style.get? .borderWidth = some (.text "1px") ∧
      content.outline.cells 1 = [2, 3] ∧
      ∃ base, (∀ other, IsBase content.outline 3 other ↔ other = base) ∧
        base.get? .borderLeftWidth = none ∧ base.get? .borderTopWidth = none := by
  intro document
  obtain ⟨content, table, built, isRow, cells, isFirst, isSecond, inTable, isTable, collapses,
      set⟩ :=
    exists_of_holdsTwoCells "th" "td" "1px" (Content.ofDocument document none 0).outcome
      (by decide +kernel)
  have taken : (content.outline.cells 1)[1]? = some 3 := by
    rw [cells]
    rfl
  obtain ⟨base, alone, draws⟩ := exists_base_of_cell built inTable isTable collapses set taken
  have apart : ((content.outline.cells 1).take 1).any (fun earlier =>
      content.outline.tag? earlier == content.outline.tag? 3) = false := by
    rw [cells, isSecond, List.take_succ_cons, List.take_zero, List.any_cons, isFirst]
    rfl
  rw [apart] at draws
  exact ⟨content, table, built, isRow, inTable, isTable, collapses, set, cells, base, alone,
    draws.left, draws.top⟩

end Render

end PagedHtml
