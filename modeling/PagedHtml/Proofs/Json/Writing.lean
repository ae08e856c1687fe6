/-
**Values are read back from JSON text.**

A value is read back if, wherever a value is expected, reading its text places its node and goes on
behind it (`IsReadBack`). Texts and whole numbers are read back, and so is an object if its values
are: each member leaves the reader at the separator behind it (`readFrom_member`), and the last one
at the bracket that closes the object (`readFrom_members`).

* `isReadBack_object`: the text of an object is read as the object of its members;
* `IsReadBack.read_write`: the text of a value is read as its node, to its end.
-/

import PagedHtml.Json.Reading
import PagedHtml.Proofs.Json.Scalars

namespace PagedHtml.Json.Node

/-- Goes on with what is left, unless the reader is done. -/
def Progress.run : Progress → List Lexeme → Node × List Lexeme
  | .going expected frames, rest => readFrom expected frames rest
  | .done node, rest => (node, rest)

theorem readFrom_cons (expected : Expected) (frames : List Frame) (lexeme : Lexeme)
    (rest : List Lexeme) :
    readFrom expected frames (lexeme :: rest) = (step expected frames lexeme).run rest := by
  rw [readFrom]
  cases step expected frames lexeme <;> rfl

/-- **That a value is read back**: where a value is expected, its text is placed as its node. -/
def IsReadBack (value : Value) : Prop :=
  ∀ frames rest, IsEnd rest →
    readFrom .value frames (lexemesOf (value.write.toList ++ rest)) =
      (place value.node frames).run (lexemesOf rest)

/-- A text or a whole number is read back. -/
theorem isReadBack_of_isPlain {value : Value} (plain : value.IsPlain) : IsReadBack value := by
  intro frames rest ends
  cases plain with
  | text text =>
    rw [Value.write, lexemesOf_quote, readFrom_cons]
    cases frames <;> rfl
  | ofNat small =>
    rw [Value.write, lexemesOf_number (by omega) ends, readFrom_cons]
    cases frames <;> rfl

/-- The text of a value that is read back is read as its node, to its end. -/
theorem IsReadBack.read_write {value : Value} (back : IsReadBack value) :
    Node.read (lexemes value.write) = (value.node, []) := by
  have whole := back [] [] nofun
  rw [List.append_nil] at whole
  rw [Node.read, lexemes, whole, lexemesOf]
  rfl

/-! ### Objects -/

/-- The frame of an object of which some members are read. -/
def Frame.ofMembers (members : List (String × Value)) (key : Option String) : Frame :=
  .object (members.map fun member => (some member.1, member.2.node)).reverse key

theorem Frame.close_ofMembers (members : List (String × Value)) (key : Option String) :
    (Frame.ofMembers members key).close = (Value.object members).node := by
  rw [ofMembers, close, List.foldl_reverse, Value.node]
  congr 1
  induction members with
  | nil => rfl
  | cons member members ih =>
    rw [List.map_cons, List.foldr_cons, ih]
    rfl

/-- The characters of a member: its key in quotes, a colon and its value. -/
def memberText (member : String × Value) : List Char :=
  (quote member.1).toList ++ ':' :: member.2.write.toList

/-- The text of an object is the texts of its members in brackets, with commas between them. -/
theorem toList_write_object (members : List (String × Value)) :
    (Value.object members).write.toList =
      '\x7b' :: ([','].intercalate (members.map memberText) ++ ['\x7d']) := by
  have each : ((Value.writeMembers members).map fun member =>
      quote member.1 ++ ":" ++ member.2).map String.toList = members.map memberText := by
    induction members with
    | nil => rfl
    | cons member members ih =>
      rw [Value.writeMembers, List.map_cons, List.map_cons, ih, List.map_cons]
      simp [memberText]
  have opened : (Value.object members).write = "\x7b" ++ ",".intercalate
      ((Value.writeMembers members).map fun member => quote member.1 ++ ":" ++ member.2) ++
        "\x7d" := rfl
  rw [opened, String.toList_append, String.toList_append, String.toList_intercalate, each]
  simp

section

variable {expected : Expected} {done members : List (String × Value)} {before : Option String}
  {outer : List Frame} {member : String × Value} {rest : List Char}

/-- **A member is read up to the separator behind it.** -/
theorem readFrom_member (isKey : expected = .firstKey ∨ expected = .key)
    (back : IsReadBack member.2) (ends : IsEnd rest) :
    readFrom expected (.ofMembers done before :: outer) (lexemesOf (memberText member ++ rest)) =
      readFrom .separator (.ofMembers (done ++ [member]) (some member.1) :: outer)
        (lexemesOf rest) := by
  have colon (chars : List Char) : lexemesOf (':' :: chars) = .colon :: lexemesOf chars :=
    lexemesOf_cons rfl chars
  have opened : step expected (.ofMembers done before :: outer) (.text (some member.1)) =
      .going .colon (.ofMembers done (some member.1) :: outer) := by
    rcases isKey with rfl | rfl <;> rfl
  have added : Frame.add member.2.node (.ofMembers done (some member.1)) =
      .ofMembers (done ++ [member]) (some member.1) := by
    simp [Frame.ofMembers, Frame.add]
  rw [memberText, List.append_assoc, lexemesOf_quote, readFrom_cons, opened, List.cons_append,
    colon]
  show readFrom .colon _ _ = _
  rw [readFrom_cons]
  show readFrom .value _ _ = _
  rw [back _ rest ends, place, added]
  rfl

/-- **Members are read up to the bracket behind them**, which closes the object. -/
theorem readFrom_members (isKey : expected = .firstKey ∨ expected = .key)
    (back : ∀ m ∈ member :: members, IsReadBack m.2) (rest : List Char) :
    readFrom expected (.ofMembers done before :: outer)
        (lexemesOf ([','].intercalate ((member :: members).map memberText) ++ '\x7d' :: rest)) =
      (place (Value.object (done ++ member :: members)).node outer).run (lexemesOf rest) := by
  have comma (chars : List Char) : lexemesOf (',' :: chars) = .comma :: lexemesOf chars :=
    lexemesOf_cons rfl chars
  have brace : lexemesOf ('\x7d' :: rest) = .closeBrace :: lexemesOf rest := lexemesOf_cons rfl rest
  induction members generalizing expected done before member with
  | nil =>
    have ends : IsEnd ('\x7d' :: rest) := fun c member => .inr (.inr (Option.some.inj member).symm)
    rw [List.map_singleton, List.intercalate_singleton,
      readFrom_member isKey (back member List.mem_cons_self) ends, brace, readFrom_cons]
    show (place (Frame.close (.ofMembers _ _)) outer).run _ = _
    rw [Frame.close_ofMembers]
  | cons next members ih =>
    obtain ⟨here, later⟩ := List.forall_mem_cons.mp back
    have ends (chars : List Char) : IsEnd (',' :: chars) := fun c member =>
      .inl (Option.some.inj member).symm
    rw [List.map_cons, List.map_cons, List.intercalate_cons_cons, List.append_assoc,
      List.append_assoc, List.singleton_append, readFrom_member isKey here (ends _), comma,
      readFrom_cons]
    show readFrom .key _ _ = _
    rw [← List.map_cons, ih (.inr rfl) later, List.append_assoc]
    rfl

end

/-- **An object is read back**, if its values are. -/
theorem isReadBack_object {members : List (String × Value)}
    (back : ∀ member ∈ members, IsReadBack member.2) : IsReadBack (.object members) := by
  intro frames rest _
  have brace (chars : List Char) : lexemesOf ('\x7b' :: chars) = .openBrace :: lexemesOf chars :=
    lexemesOf_cons rfl chars
  rw [toList_write_object, List.cons_append, List.append_assoc, List.singleton_append, brace,
    readFrom_cons]
  show readFrom .firstKey (.ofMembers [] none :: frames) _ = _
  cases members with
  | nil =>
    rw [List.map_nil, List.intercalate_nil, List.nil_append, lexemesOf_cons rfl, readFrom_cons]
    rfl
  | cons member members => exact readFrom_members (.inl rfl) back rest

end PagedHtml.Json.Node
