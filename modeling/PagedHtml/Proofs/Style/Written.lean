/-
**A style is read back from its JSON text.**

The values of a style are texts, or whole numbers such as the renderers set (`Value.IsPlain`). A
lawful codec reads a text as a text and a number as a number, the value of each kind is the one that
was written (`Value.ofNode_toJson`), and the style of the members is the style that was written
(`Map.ofList_entries`).

`Map.ofJson_json` is the whole of it: the style is read back, and no other one has its text.
-/

import PagedHtml.Proofs.Codecs
import PagedHtml.Proofs.Folding
import PagedHtml.Style.Json

namespace PagedHtml.Style

/-- **A text, or a whole number of 32 bits.** -/
inductive Value.IsPlain : Value → Prop
  | text (value : String) : IsPlain (.text value)
  | ofNat {n : Nat} : n < 2 ^ 32 → IsPlain (.ofNat n)

/-- A style all of whose values are plain. -/
def Map.IsPlain (style : Map) : Prop :=
  ∀ property value, style.get? property = some value → value.IsPlain

/-- Whether a name is in camel case: letters alone, the first of which is small. -/
def isCamelCase (name : String) : Bool :=
  match name.toList with
  | [] => false
  | first :: others => first.isLower && others.all Char.isAlpha

theorem Property.isCamelCase_name (property : Property) : isCamelCase property.name = true := by
  have every : ∀ p ∈ all, isCamelCase p.name = true := by decide +kernel
  exact every property (mem_all property)

theorem Value.isPlain_toJson {value : Value} (plain : value.IsPlain) : value.toJson.IsPlain := by
  cases plain with
  | text value => exact .text value
  | ofNat small => exact .ofNat small

theorem Value.ofNode_toJson (depth : Nat) (value : Value) :
    ofNode depth value.toJson.node = .ok value := by
  cases value <;> rfl

namespace Map

/-- The members assign their values one after the other. -/
theorem withMembers_memberNodes (depth : Nat) (entries : List (Property × Value)) (style : Map) :
    withMembers depth style (Json.Value.memberNodes
        (entries.map fun (property, value) => (property.key, value.toJson))) =
      .ok (entries.foldl (fun style (property, value) => style.insert property value) style) := by
  induction entries generalizing style with
  | nil => rfl
  | cons entry entries ih =>
    have key : Property.ofKey (some entry.1.key) = .ok entry.1 := by
      rw [Property.ofKey, Property.ofKey?_key]
    rw [List.map_cons, Json.Value.memberNodes, withMembers, key, Value.ofNode_toJson]
    exact ih _

/-- **A style is the style of its entries.** -/
theorem ofList_entries (style : Map) : ofList style.entries = style := by
  ext1
  funext p
  have inserts (style : Map) (entry : Property × Value) :
      (style.insert entry.1 entry.2).get? p =
        (if p = entry.1 then some entry.2 else none).or (style.get? p) := by
    rw [get?_insert]
    split <;> rfl
  refine (observe_foldl (fun style : Map => style.get? p) inserts style.entries empty).trans ?_
  rw [get?_empty, Option.or_none]
  cases found : style.entries.reverse.findSome? fun entry =>
      if p = entry.1 then some entry.2 else none with
  | some value =>
    obtain ⟨⟨property, other⟩, member, set⟩ := List.exists_of_findSome?_eq_some found
    obtain ⟨rfl, same⟩ := Option.ite_none_right_eq_some.mp set
    rw [mem_entries.mp (List.mem_reverse.mp member)]
    exact same.symm
  | none =>
    cases set : style.get? p with
    | none => rfl
    | some value =>
      have missing := List.findSome?_eq_none_iff.mp found (p, value)
        (List.mem_reverse.mpr (mem_entries.mpr set))
      rw [if_pos rfl] at missing
      cases missing

/-- The entries stand in the order of the vocabulary. -/
theorem sublist_entries (style : Map) : (style.entries.map Prod.fst).Sublist Property.all := by
  have keys : style.entries.map Prod.fst =
      Property.all.filter fun property => (style.get? property).isSome := by
    rw [entries, List.map_filterMap, ← List.filterMap_eq_filter]
    congr 1
    funext property
    cases set : style.get? property <;> simp [Option.guard, set]
  exact keys ▸ List.filter_sublist

/-- The object of the members of a style is taken for the style. -/
theorem ofNode_toJson {depth : Nat} (deep : 1 < depth) (style : Map) :
    ofNode depth style.toJson.node = .ok style := by
  have entered : Json.Node.enter depth = .ok (depth - 1) := if_neg (Nat.not_le.mpr deep)
  rw [toJson, Json.Value.node, ofNode, entered]
  exact (withMembers_memberNodes _ _ _).trans (congrArg Except.ok (ofList_entries style))

/-- **A style is read back from its text**, whichever lawful codec writes and reads it, and no other
style has this text. The text is an object in which the properties stand in the order of the
vocabulary, each by its name in camel case; a text there is a text, and a number a number. -/
theorem ofJson_json [Json.Codec] (lawful : Json.Codec.Lawful) {style : Map}
    (plain : style.IsPlain) :
    ofJson style.json = .ok style ∧
      (∀ other : Map, other.IsPlain → other.json = style.json → other = style) ∧
      Json.Codec.read style.json = ((Json.Value.object (style.entries.map fun (property, value) =>
        (property.key, value.toJson))).node, true) ∧
      (style.entries.map Prod.fst).Sublist Property.all ∧
      ∀ property : Property, property.key = property.name ∧ isCamelCase property.name = true := by
  have read {style : Map} (plain : style.IsPlain) :
      Json.Codec.read style.json = (style.toJson.node, true) := by
    refine lawful.read_write fun member inside => ?_
    obtain ⟨entry, listed, rfl⟩ := List.mem_map.mp inside
    exact Value.isPlain_toJson (plain entry.1 entry.2 (mem_entries.mp listed))
  have back {style : Map} (plain : style.IsPlain) : ofJson style.json = .ok style := by
    rw [ofJson, Json.decode, read plain]
    simp only [ofNode_toJson lawful.one_lt_depthLimit]
    rfl
  refine ⟨back plain, fun other plainOther same => ?_, read plain, sublist_entries style,
    fun property => ⟨property.key_eq_name, property.isCamelCase_name⟩⟩
  have whole := (back plainOther).symm.trans (same ▸ back plain)
  exact Except.ok.inj whole

/-- A number, a text that looks like one, and a text with a quote, a line break and a control
character. -/
theorem ofJson_json_digits :
    let style := ofList
      [(.color, .text "12"), (.flexBasis, .ofNat 12), (.fontFamily, .text "\"\n\x01")]
    style.json = "\x7b\"flexBasis\":12.0,\"color\":\"12\"," ++
        "\"fontFamily\":\"\\\"\\n\\u0001\"\x7d" ∧
      ofJson style.json = .ok style := by
  intro style
  have plain : style.IsPlain := by
    intro property value set
    have member := mem_entries.mpr set
    have entries : style.entries = [(.flexBasis, .ofNat 12), (.color, .text "12"),
      (.fontFamily, .text "\"\n\x01")] := by decide +kernel
    rw [entries] at member
    simp only [List.mem_cons, Prod.mk.injEq, List.not_mem_nil, or_false] at member
    rcases member with ⟨-, rfl⟩ | ⟨-, rfl⟩ | ⟨-, rfl⟩
    · exact .ofNat (by decide)
    · exact .text _
    · exact .text _
  exact ⟨by decide +kernel, (ofJson_json lawful_jsonCodec plain).1⟩

end Map

end PagedHtml.Style
