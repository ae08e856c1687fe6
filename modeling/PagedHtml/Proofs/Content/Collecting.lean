/-
**Which style sheets a document has.**

The style sheets at and below a node come from its `style` elements, in the order of the document
and whether they are shown or not. The sheet of an element is the text of its texts, each trimmed,
line by line. What is left out are elements whose text is empty in the end. Two texts are at least a
line break, however blank they are, so that an element with several blank texts still has a sheet,
though there is nothing in it (`sheet_of_blank`). Texts that are style sheets of their own lose no
rule by it.

* `stylesheetText_ne_empty_iff`: which texts are not empty in the end;
* `stylesheets_collected`: the sheets of a document, and when these are those of the elements with a
  text that is not blank;
* `parseRules_stylesheetText`: style sheets line by line have the rules of all of them.
-/

import Mathlib.Data.List.TakeWhile
import PagedHtml.Proofs.Css.Embedding
import PagedHtml.Proofs.Css.Joining
import PagedHtml.Proofs.Document.Preorder
import PagedHtml.Proofs.Folding
import PagedHtml.Proofs.Text.LetterCase
import PagedHtml.Proofs.Text.Pieces

namespace PagedHtml

/-! ### Blank texts -/

namespace Text

/-- Trimming leaves nothing just of what is blank. -/
theorem trim_eq_empty_iff {text : String} : trim text = "" ↔ isBlankText text = true := by
  rw [trim, String.ofList_eq_empty_iff, isBlankText, trimChars, dropWhileEnd,
    List.reverse_eq_nil_iff, List.dropWhile_eq_nil_iff, List.all_eq_true]
  simp only [List.mem_reverse]
  constructor
  · intro behind c member
    rw [← List.takeWhile_append_dropWhile (p := isBlank) (l := text.toList),
      List.mem_append] at member
    exact member.elim List.mem_takeWhile_imp (behind c)
  · intro all c member
    exact all c ((List.dropWhile_sublist isBlank).subset member)

/-- Lines are nothing just if there are none, or an empty one. -/
theorem intercalate_lines_eq_empty_iff {lines : List String} :
    "\n".intercalate lines = "" ↔ lines = [] ∨ lines = [""] := by
  rw [← String.toList_inj, String.toList_intercalate]
  match lines with
  | [] => simp
  | [line] => simp
  | first :: second :: rest => simp

theorem toList_intercalate_lines_empty (count : Nat) :
    ("\n".intercalate (List.replicate count "")).toList = List.replicate (count - 1) '\n' := by
  rw [String.toList_intercalate, List.map_replicate]
  induction count with
  | zero => rfl
  | succ count ih =>
    cases count with
    | zero => rfl
    | succ count =>
      rw [List.replicate_succ, List.replicate_succ, List.intercalate_cons_cons,
        ← List.replicate_succ, ih]
      rfl

end Text

namespace Css

/-- There are no rules in empty lines. -/
theorem parseRules_newlines {text : String} {count : Nat}
    (newlines : text.toList = List.replicate count '\n') : parseRules text = .ok [] := by
  have dropped : text.toList.dropWhile Text.isSpace = [] := by
    rw [newlines, List.dropWhile_eq_nil_iff]
    intro c member
    rw [List.eq_of_mem_replicate member]
    rfl
  rw [parseRules_eq_ok_iff, ← readsRules_dropWhile_iff, dropped]
  exact readsRules_nil

end Css

/-- To keep fewer elements of a list changes nothing just if it leaves none out. -/
theorem map_filter_eq_iff {α β : Type} {few many : α → Bool} (f : α → β) (list : List α)
    (fewer : ∀ a, few a = true → many a = true) :
    (list.filter many).map f = (list.filter few).map f ↔
      ∀ a ∈ list, many a = true → few a = true := by
  have nested : (list.filter many).filter few = list.filter few := by
    rw [List.filter_filter]
    refine List.filter_congr fun a _ => ?_
    cases kept : few a with
    | true => rw [fewer a kept]; rfl
    | false => rfl
  constructor
  · intro same a member kept
    have lengths := congrArg List.length same
    rw [List.length_map, List.length_map, ← nested, eq_comm,
      List.length_filter_eq_length_iff] at lengths
    exact lengths a (List.mem_filter.mpr ⟨member, kept⟩)
  · intro each
    rw [List.filter_congr fun a member => Bool.eq_iff_iff.mpr ⟨each a member, fewer a⟩]

namespace Document

/-- The texts right in a node. -/
def texts (document : Document) (id : Nat) : List String :=
  (document.children id).filterMap document.text?

/-- Whether a node is a `style` element, in capitals or small letters. -/
def isStyle (document : Document) (id : Nat) : Bool :=
  (document.element? id).any fun data => Text.lower data.tag == "style"

/-- Whether some text right in a node is not blank. -/
def hasText (document : Document) (id : Nat) : Bool :=
  (document.texts id).any fun text => !Text.isBlankText text

/-- Whether there are several texts right in a node. -/
def hasSeveralTexts (document : Document) (id : Nat) : Bool := 2 ≤ (document.texts id).length

/-- The style sheet of a node: its texts, trimmed, line by line. -/
def sheet (document : Document) (id : Nat) : Reported Style.Table :=
  Style.Table.ofText ("\n".intercalate ((document.texts id).map Text.trim))

variable {document : Document} {root : Nat}

theorem stylesheetText_ne_empty_iff (id : Nat) :
    document.stylesheetText id ≠ "" ↔
      document.hasText id = true ∨ document.hasSeveralTexts id = true := by
  unfold stylesheetText hasText hasSeveralTexts
  rw [← texts, Ne, Text.intercalate_lines_eq_empty_iff, decide_eq_true_eq]
  match document.texts id with
  | [] => simp
  | [text] => simp [Text.trim_eq_empty_iff]
  | first :: second :: rest => simp

/-- A sheet without a text that is not blank holds nothing, and there is nothing to report of it. -/
theorem sheet_of_blank {id : Nat} (blank : document.hasText id = false) :
    document.sheet id = ⟨Style.Table.empty, []⟩ := by
  have lines : (document.texts id).map Text.trim =
      List.replicate (document.texts id).length "" := by
    refine List.eq_replicate_iff.mpr ⟨List.length_map _, fun line member => ?_⟩
    obtain ⟨text, listed, rfl⟩ := List.mem_map.mp member
    rw [hasText, List.any_eq_false] at blank
    exact Text.trim_eq_empty_iff.mpr (by simpa using blank text listed)
  rw [sheet, lines, Style.Table.ofText,
    Css.parseRules_newlines (Text.toList_intercalate_lines_empty _)]
  rfl

/-- The `style` elements are those that are asked for by tag, in the order of the document. -/
theorem elementsByTag_style (acyclic : document.AcyclicFrom root) {order : List Nat}
    (inOrder : document.InOrder [root] order) :
    document.elementsByTag root "style" = order.filter document.isStyle := by
  have same : (fun id => (document.element? id).any fun data =>
      Text.equalsIgnoringCase data.tag "style") = document.isStyle := by
    funext id
    unfold isStyle
    congr 1
    funext data
    rw [Bool.eq_iff_iff, Text.equalsIgnoringCase_iff, beq_iff_eq]
    rfl
  rw [elementsByTag, same]
  refine acyclic.filter_descendants (fun id style => ?_) inOrder
  obtain ⟨data, isElement, -⟩ := (Option.any_eq_true _ _).mp style
  obtain ⟨node, found, -⟩ := element?_eq_some_iff.mp isElement
  exact lt_size_of_get? found

/-- **The style sheets of a document**, as far as it goes down from a root, if no node there is
inside of itself. They are those of the `style` elements, in the order of the document, that have a
text that is not blank or that have several texts, be they all blank; then there is nothing in the
sheet, and nothing to report of it. So they are those of the elements with a text that is not blank
exactly if every `style` element with several texts has one. -/
theorem stylesheets_collected (acyclic : document.AcyclicFrom root) :
    ∃ order, (∀ other, document.InOrder [root] other ↔ other = order) ∧
      let styles := order.filter document.isStyle
      let collected := styles.filter fun id => document.hasText id || document.hasSeveralTexts id
      (document.stylesheets root).value = collected.map (fun id => (document.sheet id).value) ∧
      (document.stylesheets root).diagnostics =
        collected.flatMap (fun id => (document.sheet id).diagnostics) ∧
      (∀ id, document.hasText id = false → document.sheet id = ⟨Style.Table.empty, []⟩) ∧
      ((document.stylesheets root).value =
          (styles.filter document.hasText).map (fun id => (document.sheet id).value) ↔
        ∀ id ∈ styles, document.hasSeveralTexts id = true → document.hasText id = true) := by
  obtain ⟨order, inOrder⟩ := acyclic.exists_inOrder
  refine ⟨order, fun other => ⟨inOrder.unique, ?_⟩, ?_⟩
  · rintro rfl
    exact inOrder
  intro styles collected
  have chosen : ((styles.map document.stylesheetText).filter (· ≠ "")) =
      collected.map document.stylesheetText := by
    rw [List.filter_map]
    refine congrArg (List.map _) (List.filter_congr fun id _ => ?_)
    rw [Bool.eq_iff_iff, Function.comp_apply, decide_eq_true_eq, stylesheetText_ne_empty_iff,
      Bool.or_eq_true]
  have made : document.stylesheets root =
      (collected.map document.stylesheetText).mapM Style.Table.ofText := by
    rw [stylesheets, elementsByTag_style acyclic inOrder]
    exact congrArg (List.mapM Style.Table.ofText) chosen
  have value : (document.stylesheets root).value =
      collected.map fun id => (document.sheet id).value := by
    rw [made, Reported.value_mapM, List.map_map]
    rfl
  refine ⟨value, ?_, fun id => sheet_of_blank, ?_⟩
  · rw [made, Reported.diagnostics_mapM, List.flatMap_map]
    rfl
  · rw [value, map_filter_eq_iff _ _ fun id has => by rw [has, Bool.true_or]]
    refine forall₂_congr fun id _ => ⟨fun each several => each ?_, fun each either => ?_⟩
    · rw [several, Bool.or_true]
    · rcases (Bool.or_eq_true _ _).mp either with has | several
      · exact has
      · exact each several

/-- In a head with a `STYLE` and a blank `style`, the first has a sheet and the second does not. -/
theorem stylesheets_collected_head :
    let document : Document := ⟨#[⟨.element ⟨"head", .empty⟩, none, [1, 2]⟩,
      ⟨.element ⟨"STYLE", .empty⟩, some 0, [3]⟩, ⟨.element ⟨"style", .empty⟩, some 0, [4]⟩,
      ⟨.text "p\x7bcolor:red\x7d", some 1, []⟩, ⟨.text "\n", some 2, []⟩]⟩
    document.AcyclicFrom 0 ∧ document.InOrder [0] [0, 1, 3, 2, 4] ∧
      (document.stylesheets 0).value = [(document.sheet 1).value] := by
  intro document
  have growing : ∀ above < document.size, ∀ below ∈ document.children above, above < below := by
    decide
  have acyclic : document.AcyclicFrom 0 :=
    .of_lt (fun above below lists => growing above (lt_size_of_isAbove lists) below lists) 0
  have inOrder : document.InOrder [0] [0, 1, 3, 2, 4] :=
    @InOrder.cons _ 0 [] [1, 3, 2, 4] [] (@InOrder.cons _ 1 [2] [3] [2, 4] (.childless rfl .nil)
      (@InOrder.cons _ 2 [] [4] [] (.childless rfl .nil) .nil)) .nil
  obtain ⟨order, same, -, -, -, exactly⟩ := stylesheets_collected acyclic
  obtain rfl := (same _).mp inOrder
  refine ⟨acyclic, inOrder, (exactly.mpr ?_).trans ?_⟩
  · decide +kernel
  · have styles : ([0, 1, 3, 2, 4].filter document.isStyle).filter document.hasText = [1] := by
      decide +kernel
    rw [styles]
    rfl

/-- **Two blank texts in a `style` element are a sheet.** -/
theorem stylesheets_two_blanks :
    let document : Document := ⟨#[⟨.element ⟨"style", .empty⟩, none, [1, 2]⟩,
      ⟨.text " ", some 0, []⟩, ⟨.text "\n", some 0, []⟩]⟩
    document.AcyclicFrom 0 ∧ document.InOrder [0] [0, 1, 2] ∧
      (document.stylesheets 0).value.length = 1 ∧
      (document.stylesheets 0).value ≠ (([0, 1, 2].filter document.isStyle).filter
        document.hasText).map fun id => (document.sheet id).value := by
  intro document
  have growing : ∀ above < document.size, ∀ below ∈ document.children above, above < below := by
    decide
  have one : (document.stylesheets 0).value.length = 1 := by decide +kernel
  refine ⟨.of_lt (fun above below lists => growing above (lt_size_of_isAbove lists) below lists) 0,
    @InOrder.cons _ 0 [] [1, 2] [] (.childless rfl (.childless rfl .nil)) .nil, one, fun same => ?_⟩
  have nothing : ([0, 1, 2].filter document.isStyle).filter document.hasText = [] := by decide
  rw [nothing] at same
  rw [same] at one
  cases one

/-! ### The rules of the texts -/

/-- **Style sheets line by line have the rules of all of them, in order**: two of them, any number
of them, and the texts of an element, each trimmed. All but the last hold no backslash and no
at-keyword. -/
theorem parseRules_stylesheetText :
    (∀ {text other : String} {rules more : List Css.Rule}, Css.parseRules text = .ok rules →
      Css.IsSelfContained text.toList → Css.parseRules other = .ok more →
      Css.parseRules (text ++ "\n" ++ other) = .ok (rules ++ more)) ∧
    (∀ {texts : List String} {sheets : List (List Css.Rule)},
      List.Forall₂ (fun text rules => Css.parseRules text = .ok rules) texts sheets →
      (∀ text ∈ texts.dropLast, Css.IsSelfContained text.toList) →
      Css.parseRules ("\n".intercalate texts) = .ok sheets.flatten) ∧
    ∀ {document : Document} {id : Nat} {sheets : List (List Css.Rule)},
      List.Forall₂ (fun text rules => Css.parseRules (Text.trim text) = .ok rules)
        (document.texts id) sheets →
      (∀ text ∈ (document.texts id).dropLast, Css.IsSelfContained (Text.trim text).toList) →
      Css.parseRules (document.stylesheetText id) = .ok sheets.flatten := by
  refine ⟨Css.parseRules_newline, Css.parseRules_lines, ?_⟩
  intro document id sheets read contained
  show Css.parseRules ("\n".intercalate ((document.texts id).map Text.trim)) = _
  refine Css.parseRules_lines (List.forall₂_map_left_iff.mpr read) ?_
  rw [← List.map_dropLast, List.forall_mem_map]
  exact contained

theorem parseRules_stylesheetText_pair :
    let document : Document := ⟨#[⟨.element ⟨"style", .empty⟩, none, [1, 2]⟩,
      ⟨.text " p\x7b\x7d ", some 0, []⟩, ⟨.text "p\x7b\x7d", some 0, []⟩]⟩
    Css.parseRules ("p\x7b\x7d" ++ "\n" ++ "p\x7b\x7d") = .ok ([⟨["p"], []⟩] ++ [⟨["p"], []⟩]) ∧
      Css.parseRules ("\n".intercalate ["p\x7b\x7d", "p\x7b\x7d"]) =
        .ok [[⟨["p"], []⟩], [⟨["p"], []⟩]].flatten ∧
      Css.parseRules (document.stylesheetText 0) = .ok [[⟨["p"], []⟩], [⟨["p"], []⟩]].flatten := by
  intro document
  have empty : Css.tokensOf "" = .ok ([] ++ [.endOfFile]) :=
    Css.tokensOf_eq_ok_iff.mpr ⟨by decide +kernel, by decide +kernel⟩
  have read : Css.parseRules "p\x7b\x7d" = .ok [⟨["p"], []⟩] :=
    Css.parseRules_of_spellsAll (by decide) empty .nil
  have tokens : (Css.tokenizeChars "p\x7b\x7d".toList).tokens =
      [.ident "p", .leftBrace, .rightBrace, .endOfFile] := by decide +kernel
  have contained : Css.IsSelfContained "p\x7b\x7d".toList := by
    refine ⟨by decide, fun name => ?_⟩
    rw [tokens]
    simp
  have texts : document.texts 0 = [" p\x7b\x7d ", "p\x7b\x7d"] := rfl
  have trimmed : Text.trim " p\x7b\x7d " = "p\x7b\x7d" := by decide +kernel
  have trimmedLast : Text.trim "p\x7b\x7d" = "p\x7b\x7d" := by decide +kernel
  obtain ⟨pair, lines, element⟩ := parseRules_stylesheetText
  refine ⟨pair read contained read, lines (.cons read (.cons read .nil)) ?_, element ?_ ?_⟩
  · exact List.forall_mem_singleton.mpr contained
  · rw [texts]
    exact .cons (trimmed ▸ read) (.cons (trimmedLast ▸ read) .nil)
  · rw [texts]
    exact List.forall_mem_singleton.mpr (trimmed ▸ contained)

end Document

end PagedHtml
