/-
**At-rules and declarations are read as their grammar spells them.**

Each reader takes just what the grammar of its construct spells and leaves the tokens behind it. One
direction goes along the derivation: behind the spelling of a construct the reader is where it would
be if it had read it. The other goes along the recursion of the reader. It needs tokens with one end
(`EndsOnce`): an at-rule that nothing ends is skipped with the end of the tokens, and tokens behind
that end would be read on.

* `skipAtRule_of_atRule`, `exists_atRule_of_skipAtRule`: at-rules;
* `Declaration.read_eq_ok_iff`: one declaration;
* `Declaration.readAll_of_spellsAll`, `Declaration.exists_spellsAll_of_readAll`: their lists in
  braces.
-/

import PagedHtml.Proofs.Css.Grammar

namespace PagedHtml.Css

/-! ### Outcomes -/

namespace Outcome

variable {α β : Type} {outcome : Outcome α} {rest : List Token}

theorem eq_ok {value : α} (accepted : outcome.result = .ok value) :
    outcome = .ok value outcome.rest := by
  obtain ⟨result, rest⟩ := outcome
  obtain rfl := accepted
  rfl

theorem refuse_ne_ok {fault : Fault} {left : List Token} {value : α} :
    (refuse fault left : Outcome α) ≠ .ok value rest := nofun

theorem map_eq_ok_iff {f : α → β} {value : β} :
    outcome.map f = .ok value rest ↔ ∃ a, outcome = .ok a rest ∧ f a = value := by
  obtain ⟨result, left⟩ := outcome
  cases result with
  | error fault => simp [map, ok, Except.map]
  | ok a =>
    simp only [map, ok, Except.map, Outcome.mk.injEq, Except.ok.injEq]
    constructor
    · rintro ⟨rfl, rfl⟩
      exact ⟨a, ⟨rfl, rfl⟩, rfl⟩
    · rintro ⟨_, ⟨rfl, rfl⟩, rfl⟩
      exact ⟨rfl, rfl⟩

@[simp] theorem map_ok (f : α → β) (value : α) (left : List Token) :
    (ok value left).map f = .ok (f value) left := rfl

end Outcome

/-! ### What stops a reader, by the components that it takes -/

namespace Component

theorem Spells.isPlain {tokens : List Token} {components : List Component} {token : Token}
    (spells : Spells tokens components) (member : .token token ∈ components) : token.IsPlain := by
  induction spells with
  | nil => cases member
  | plain plain _ ih =>
    rcases List.mem_cons.mp member with same | later
    · cases same
      exact plain
    · exact ih later
  | nested _ _ _ _ _ ih =>
    rcases List.mem_cons.mp member with same | later
    · exact absurd same.symm (close_ne_token _ _ _)
    · exact ih later

/-- What starts with a token that opens nothing is this token. -/
theorem lead_eq_iff (token : Token) (plain : token.opening? = none) {component : Component} :
    component.lead = token ↔ component = .token token := by
  cases component with
  | token first => exact ⟨congrArg Component.token, Component.token.inj⟩
  | function name arguments =>
    refine ⟨fun same => ?_, fun same => by cases same⟩
    rw [← same] at plain
    cases plain
  | block bracket contents =>
    refine ⟨fun same => ?_, fun same => by cases same⟩
    rw [← same] at plain
    cases bracket <;> cases plain

/-- What is spelt and starts with an opening brace is a block in braces. -/
theorem Spells.lead_eq_leftBrace_iff {tokens : List Token} {components : List Component}
    {component : Component} (spells : Spells tokens components) (member : component ∈ components) :
    component.lead = .leftBrace ↔ component.IsBraced := by
  cases component with
  | token first =>
    refine ⟨fun same => ?_, fun braced => ?_⟩
    · obtain rfl : first = .leftBrace := same
      cases (spells.isPlain member).1
    · obtain ⟨contents, same⟩ := braced
      cases same
  | function name arguments =>
    refine ⟨fun same => ?_, fun braced => ?_⟩
    · cases same
    · obtain ⟨contents, same⟩ := braced
      cases same
  | block bracket contents =>
    cases bracket with
    | brace => exact ⟨fun _ => ⟨contents, rfl⟩, fun _ => rfl⟩
    | square | round =>
      refine ⟨fun same => ?_, fun braced => ?_⟩
      · cases same
      · obtain ⟨_, same⟩ := braced
        cases same

end Component

/-! ### The end of the tokens -/

/-- Tokens of which the last one, and no other, is the end. -/
def EndsOnce (tokens : List Token) : Prop :=
  ∃ body, tokens = body ++ [.endOfFile] ∧ .endOfFile ∉ body

theorem EndsOnce.of_append {front rest : List Token} (ends : EndsOnce (front ++ rest))
    (without : .endOfFile ∉ front) : EndsOnce rest := by
  obtain ⟨body, split, once⟩ := ends
  rcases List.append_eq_append_iff.mp split with ⟨more, rfl, rfl⟩ | ⟨more, rfl, last⟩
  · exact ⟨more, rfl, fun member => once (List.mem_append_right _ member)⟩
  · cases more with
    | nil => exact ⟨[], last.symm, List.not_mem_nil⟩
    | cons first more =>
      obtain ⟨rfl, -⟩ := List.cons.inj last
      exact absurd (List.mem_append_right _ List.mem_cons_self) without

theorem EndsOnce.cons {token : Token} {rest : List Token} (ends : EndsOnce (token :: rest))
    (other : token ≠ .endOfFile) : EndsOnce rest := by
  have split : EndsOnce ([token] ++ rest) := ends
  exact split.of_append (by simpa using other.symm)

/-- Nothing is behind the end. -/
theorem EndsOnce.eq_nil {front rest : List Token}
    (ends : EndsOnce (front ++ .endOfFile :: rest)) (without : .endOfFile ∉ front) : rest = [] := by
  obtain ⟨body, split, once⟩ := ends.of_append without
  cases body with
  | nil => exact (List.cons.inj split).2
  | cons first body =>
    obtain ⟨rfl, -⟩ := List.cons.inj split
    exact absurd List.mem_cons_self once

theorem not_endsOnce_nil : ¬ EndsOnce [] := by
  rintro ⟨body, split, -⟩
  cases body <;> cases split

/-! ### At-rules -/

section

variable {name : String} {tail tokens rest : List Token}

/-- The tokens before which the prelude of an at-rule ends. -/
theorem goes_atRule_iff {spelling : List Token} {components : List Component}
    (spells : Component.Spells spelling components) :
    (∀ component ∈ components, decide (component.lead = .semicolon ∨ component.lead = .leftBrace ∨
        component.lead = .rightBrace) = false) ↔
      ∀ component ∈ components, component ≠ .token .semicolon ∧
        component ≠ .token .rightBrace ∧ ¬ component.IsBraced := by
  refine forall₂_congr fun component member => ?_
  rw [decide_eq_false_iff_not, not_or, not_or, Component.lead_eq_iff .semicolon rfl,
    Component.lead_eq_iff .rightBrace rfl, spells.lead_eq_leftBrace_iff member]
  tauto

theorem AtRule.Start.exists_eq {start : List Token} (starts : Start start) :
    ∃ name tail components, start = .atKeyword name :: tail ∧ Component.Spells tail components ∧
      ∀ component ∈ components, component ≠ .token .semicolon ∧
        component ≠ .token .rightBrace ∧ ¬ component.IsBraced := by
  cases starts with
  | mk spells avoids => exact ⟨_, _, _, rfl, spells, avoids⟩

theorem skipAtRule_eq {components : List Component} (spells : Component.Spells tail components)
    (avoids : ∀ component ∈ components, component ≠ .token .semicolon ∧
      component ≠ .token .rightBrace ∧ ¬ component.IsBraced) {next : Token}
    (stops : next = .semicolon ∨ next = .leftBrace ∨ next = .endOfFile) :
    skipAtRule (tail ++ next :: rest) =
      match next with
      | .leftBrace => (Component.readBlock .brace rest).map fun _ => ()
      | _ => .ok () rest := by
  have start : Component.readUntil (fun token =>
      token = .semicolon ∨ token = .leftBrace ∨ token = .rightBrace) (tail ++ next :: rest) =
        .ok components (next :: rest) := by
    refine Component.readUntil_eq_ok_iff.mpr
      ⟨tail, rfl, spells, (goes_atRule_iff spells).mpr avoids, fun first same => ?_⟩
    cases Option.some.inj same
    rcases stops with rfl | rfl | rfl <;> simp
  rw [skipAtRule, start]
  rcases stops with rfl | rfl | rfl <;> rfl

/-- **An at-rule is skipped** with what ends it. -/
theorem skipAtRule_of_atRule {rule : List Token} (isRule : AtRule rule) :
    ∃ name tail, rule = .atKeyword name :: tail ∧
      ∀ rest, skipAtRule (tail ++ rest) = .ok () rest := by
  cases isRule with
  | semicolon starts =>
    obtain ⟨name, tail, components, rfl, spells, avoids⟩ := starts.exists_eq
    refine ⟨name, tail ++ [.semicolon], rfl, fun rest => ?_⟩
    rw [List.append_assoc]
    exact skipAtRule_eq spells avoids (.inl rfl)
  | block starts braced =>
    obtain ⟨name, tail, components, rfl, spells, avoids⟩ := starts.exists_eq
    obtain ⟨inside, rfl, spelt, closed⟩ := Component.spells_block_iff.mp braced
    refine ⟨name, _, rfl, fun rest => ?_⟩
    have block := Component.readBlock_eq_ok_iff.mpr
      ⟨inside, _, Eq.refl (inside ++ Bracket.brace.closingToken :: rest), spelt, closed, rfl⟩
    have skipped : skipAtRule (tail ++ Token.leftBrace ::
        (inside ++ Bracket.brace.closingToken :: rest)) = _ :=
      skipAtRule_eq spells avoids (.inr (.inl rfl))
    simp only [block, Outcome.map_ok] at skipped
    simpa [Bracket.openingToken] using skipped

/-- An at-rule that nothing ends is skipped with the end of the tokens. -/
theorem skipAtRule_of_start {start : List Token} (starts : AtRule.Start start) :
    ∃ name tail, start = .atKeyword name :: tail ∧
      skipAtRule (tail ++ [.endOfFile]) = .ok () [] := by
  obtain ⟨name, tail, components, rfl, spells, avoids⟩ := starts.exists_eq
  exact ⟨name, tail, rfl, skipAtRule_eq spells avoids (.inr (.inr rfl))⟩

theorem AtRule.Start.void_notMem {start : List Token} (starts : AtRule.Start start) {token : Token}
    (void : token.IsVoid) : token ∉ start := by
  obtain ⟨name, tail, components, rfl, spells, -⟩ := starts.exists_eq
  rw [List.mem_cons, not_or]
  exact ⟨fun same => void.not_isPlain (same ▸ ⟨rfl, nofun, nofun, nofun⟩), spells.void_notMem void⟩

theorem AtRule.void_notMem {rule : List Token} (isRule : AtRule rule) {token : Token}
    (void : token.IsVoid) : token ∉ rule := by
  cases isRule with
  | semicolon starts =>
    rw [List.mem_append, not_or, List.mem_singleton]
    refine ⟨starts.void_notMem void, fun same => ?_⟩
    exact void.not_isPlain (same ▸ ⟨rfl, nofun, nofun, nofun⟩)
  | block starts braced =>
    rw [List.mem_append, not_or]
    exact ⟨starts.void_notMem void, braced.void_notMem void⟩

theorem AtRule.endOfFile_notMem {rule : List Token} (isRule : AtRule rule) : .endOfFile ∉ rule :=
  isRule.void_notMem (.inr (.inr rfl))

/-- **What is skipped is an at-rule**, or one that nothing ends and the end of the tokens. -/
theorem exists_atRule_of_skipAtRule (ends : EndsOnce tokens)
    (skipped : skipAtRule tokens = .ok () rest) (name : String) :
    (∃ tail, tokens = tail ++ rest ∧ AtRule (.atKeyword name :: tail)) ∨
      ∃ tail, tokens = tail ++ [.endOfFile] ∧ rest = [] ∧
        AtRule.Start (.atKeyword name :: tail) := by
  rw [skipAtRule] at skipped
  split at skipped
  · exact absurd skipped Outcome.refuse_ne_ok
  · next components accepted =>
    obtain ⟨tail, split, spells, goes, stopped⟩ :=
      Component.readUntil_eq_ok_iff.mp (Outcome.eq_ok accepted)
    have starts : AtRule.Start (.atKeyword name :: tail) :=
      .mk spells ((goes_atRule_iff spells).mp goes)
    generalize (Component.readUntil _ tokens).rest = left at split stopped skipped
    subst split
    cases left with
    | nil =>
      obtain ⟨body, split, once⟩ := ends
      refine absurd ?_ spells.endOfFile_notMem
      rw [List.append_nil] at split
      rw [split]
      exact List.mem_append_right _ List.mem_cons_self
    | cons next left =>
      have stop := stopped next rfl
      simp only [decide_eq_true_eq] at stop
      rcases stop with rfl | rfl | rfl | rfl
      · obtain rfl := ends.eq_nil spells.endOfFile_notMem
        cases skipped
        exact .inr ⟨tail, rfl, rfl, starts⟩
      · cases skipped
        exact .inl ⟨tail ++ [Token.semicolon], by simp, .semicolon starts⟩
      · obtain ⟨block, read, -⟩ := Outcome.map_eq_ok_iff.mp skipped
        obtain ⟨inside, contents, rfl, spelt, closed, rfl⟩ :=
          Component.readBlock_eq_ok_iff.mp read
        have braced := Component.spells_block_iff.mpr ⟨inside, rfl, spelt, closed⟩
        refine .inl ⟨tail ++ Token.leftBrace :: (inside ++ [Token.rightBrace]), ?_,
          .block starts braced⟩
        simp [Bracket.closingToken]
      · exact absurd skipped Outcome.refuse_ne_ok

end

/-! ### Declarations -/

namespace Declaration

theorem skipSpaces_append {before rest : List Token}
    (blank : ∀ token ∈ before, token = .whitespace) (ends : rest.head? ≠ some .whitespace) :
    skipSpaces (before ++ rest) = rest := by
  rw [skipSpaces, List.dropWhile_append_of_pos (by simpa using blank)]
  cases rest with
  | nil => rfl
  | cons first rest =>
    refine List.dropWhile_cons_of_neg fun space => ends ?_
    rw [of_decide_eq_true space]
    rfl

theorem exists_skipSpaces (tokens : List Token) :
    ∃ before, tokens = before ++ skipSpaces tokens ∧ (∀ token ∈ before, token = .whitespace) ∧
      (skipSpaces tokens).head? ≠ some .whitespace := by
  refine ⟨tokens.takeWhile (· = .whitespace), List.takeWhile_append_dropWhile.symm,
    fun token member => ?_, fun space => ?_⟩
  · exact of_decide_eq_true (List.all_eq_true.mp List.all_takeWhile token member)
  · have first := List.head?_dropWhile_not (· = Token.whitespace) tokens
    rw [skipSpaces] at space
    rw [space] at first
    simp at first

/-- The tokens before which a value ends. -/
theorem goes_value_iff {components : List Component} :
    (∀ component ∈ components,
        decide (component.lead = .semicolon ∨ component.lead = .rightBrace) = false) ↔
      ∀ component ∈ components,
        component ≠ .token .semicolon ∧ component ≠ .token .rightBrace := by
  refine forall₂_congr fun component _ => ?_
  rw [decide_eq_false_iff_not, not_or, Component.lead_eq_iff .semicolon rfl,
    Component.lead_eq_iff .rightBrace rfl]

/-- A spelling starts with a space just if its first component is one. -/
theorem head?_append_ne_whitespace {tokens rest : List Token} {components : List Component}
    (spells : Component.Spells tokens components)
    (first : components.head? ≠ some (.token .whitespace)) (ends : rest.head? ≠ some .whitespace) :
    (tokens ++ rest).head? ≠ some .whitespace := by
  cases components with
  | nil =>
    rw [spells.eq_nil]
    exact ends
  | cons component components =>
    obtain ⟨tokens, rfl⟩ := spells.exists_lead
    intro space
    refine first (congrArg some ((Component.lead_eq_iff _ rfl).mp ?_))
    exact Option.some.inj space

/-- **Reading a declaration takes what spells it**, up to a semicolon, a closing brace or the end.
-/
theorem read_eq_ok_iff {name : String} {tokens rest : List Token} {declaration : Declaration} :
    read name tokens = .ok declaration rest ↔
      ∃ spelling, tokens = spelling ++ rest ∧ Spells (.ident name :: spelling) declaration ∧
        Component.Stopped (fun token => token = .semicolon ∨ token = .rightBrace) rest := by
  constructor
  · intro accepted
    obtain ⟨before, split, blankBefore, -⟩ := exists_skipSpaces tokens
    rw [read] at accepted
    split at accepted
    · next further found =>
      obtain ⟨after, splitAfter, blankAfter, first⟩ := exists_skipSpaces further
      obtain ⟨components, value, rfl⟩ := Outcome.map_eq_ok_iff.mp accepted
      obtain ⟨spelling, taken, spells, goes, stopped⟩ := Component.readUntil_eq_ok_iff.mp value
      refine ⟨before ++ .colon :: after ++ spelling, ?_, ?_, stopped⟩
      · rw [split, found, splitAfter, taken]
        simp
      · refine .mk blankBefore blankAfter spells (goes_value_iff.mp goes) ?_
          (stripImportant_eq_iff.mp rfl)
        intro space
        cases components with
        | nil => cases space
        | cons component components =>
          obtain ⟨spelling, rfl⟩ := spells.exists_lead
          obtain rfl := Option.some.inj space
          rw [taken] at first
          exact first rfl
    · exact absurd accepted Outcome.refuse_ne_ok
  · rintro ⟨spelling, rfl, spells, stopped⟩
    generalize whole : Token.ident name :: spelling = all at spells
    cases spells with
    | @mk _ before after tokens components value important blankBefore blankAfter spells goes first
        annotated =>
      obtain ⟨same, rfl⟩ := List.cons.inj whole
      obtain rfl := Token.ident.inj same
      have ends : rest.head? ≠ some .whitespace := by
        intro space
        rcases stopped _ space with isEnd | stops
        · cases isEnd
        · simp at stops
      have value := Component.readUntil_eq_ok_iff.mpr
        ⟨tokens, Eq.refl (tokens ++ rest), spells, goes_value_iff.mpr goes, stopped⟩
      show read name (before ++ Token.colon :: after ++ tokens ++ rest) = _
      rw [List.append_assoc, List.append_assoc, List.cons_append, read,
        skipSpaces_append blankBefore (by simp)]
      simp only [skipSpaces_append blankAfter (head?_append_ne_whitespace spells first ends), value,
        Outcome.map_ok, stripImportant_eq_iff.mpr annotated]

/-! ### Lists of declarations -/

section

variable {inBlock : Bool} {name : String} {tokens rest left : List Token}
  {declaration : Declaration} {declarations : List Declaration}

theorem readAll_atRule (skipped : skipAtRule tokens = .ok () rest) :
    readAll inBlock (.atKeyword name :: tokens) = readAll inBlock rest := by
  rw [readAll, skipped]
  rfl

theorem readAll_ident (first : read name tokens = .ok declaration rest) :
    readAll inBlock (.ident name :: tokens) = (readAll inBlock rest).map (declaration :: ·) := by
  rw [readAll, first]
  rfl

theorem Spells.exists_name {spelling : List Token} (spells : Spells spelling declaration) :
    ∃ name tail, spelling = .ident name :: tail := by
  cases spells with
  | mk => exact ⟨_, _, rfl⟩

/-- A declaration is read with what stops it behind it. -/
theorem readAll_of_spells {spelling : List Token} (spells : Spells spelling declaration)
    (stopped : Component.Stopped (fun token => token = .semicolon ∨ token = .rightBrace) rest) :
    readAll inBlock (spelling ++ rest) = (readAll inBlock rest).map (declaration :: ·) := by
  obtain ⟨name, tail, rfl⟩ := spells.exists_name
  exact readAll_ident (read_eq_ok_iff.mpr ⟨tail, rfl, spells, stopped⟩)

/-- What a list of declarations is read up to: in a block the closing brace, else the end. -/
def terminator (inBlock : Bool) : Token := if inBlock then .rightBrace else .endOfFile

/-- **A list of declarations is read up to what terminates it.** -/
theorem readAll_of_spellsAll (inBlock : Bool) (spells : SpellsAll tokens declarations)
    (rest : List Token) :
    readAll inBlock (tokens ++ terminator inBlock :: rest) =
      .ok declarations (terminator inBlock :: rest) := by
  have closing : readAll inBlock (terminator inBlock :: rest) =
      .ok [] (terminator inBlock :: rest) := by
    cases inBlock with
    | false =>
      show readAll false (.endOfFile :: rest) = _
      rw [readAll]
      rfl
    | true =>
      show readAll true (.rightBrace :: rest) = _
      rw [readAll]
      rfl
  induction spells with
  | nil => exact closing
  | skip isSpace _ ih =>
    rcases isSpace with rfl | rfl
    · rw [List.cons_append, readAll, ih]
    · rw [List.cons_append, readAll, ih]
  | atRule isRule _ ih =>
    obtain ⟨name, tail, rfl, skips⟩ := skipAtRule_of_atRule isRule
    rw [List.append_assoc, List.cons_append, readAll_atRule (skips _), ih]
  | last spells =>
    rw [readAll_of_spells spells, closing, Outcome.map_ok]
    rintro next same
    cases Option.some.inj same
    cases inBlock <;> simp [terminator]
  | cons spells _ ih =>
    rw [List.append_assoc, List.cons_append, readAll_of_spells spells, readAll, ih, Outcome.map_ok]
    rintro next same
    cases Option.some.inj same
    simp

theorem Spells.void_notMem {spelling : List Token} (spells : Spells spelling declaration)
    {token : Token} (void : token.IsVoid) : token ∉ spelling := by
  cases spells with
  | @mk name before after _ _ _ _ blankBefore blankAfter value =>
    have notPlain := void.not_isPlain
    have notName : token ≠ .ident name := fun same => notPlain (same ▸ ⟨rfl, nofun, nofun, nofun⟩)
    have notColon : token ≠ .colon := fun same => notPlain (same ▸ ⟨rfl, nofun, nofun, nofun⟩)
    have notSpace : token ≠ .whitespace := fun same => notPlain (same ▸ ⟨rfl, nofun, nofun, nofun⟩)
    have notBefore : token ∉ before := fun member => notSpace (blankBefore token member)
    have notAfter : token ∉ after := fun member => notSpace (blankAfter token member)
    simp [notName, notColon, notBefore, notAfter, value.void_notMem void]

theorem Spells.endOfFile_notMem {spelling : List Token} (spells : Spells spelling declaration) :
    .endOfFile ∉ spelling :=
  spells.void_notMem (.inr (.inr rfl))

theorem void_ne_separator {token other : Token} (void : token.IsVoid)
    (separates : other = .whitespace ∨ other = .semicolon) : token ≠ other := by
  rintro rfl
  rcases separates with rfl | rfl <;> exact void.not_isPlain ⟨rfl, nofun, nofun, nofun⟩

theorem SpellsAll.void_notMem (spells : SpellsAll tokens declarations) {token : Token}
    (void : token.IsVoid) : token ∉ tokens := by
  induction spells with
  | nil => exact List.not_mem_nil
  | skip isSpace _ ih => simp [void_ne_separator void isSpace, ih]
  | atRule isRule _ ih => simp [isRule.void_notMem void, ih]
  | last spells => exact spells.void_notMem void
  | cons spells _ ih => simp [spells.void_notMem void, void_ne_separator void (.inr rfl), ih]

theorem SpellsAll.endOfFile_notMem (spells : SpellsAll tokens declarations) :
    .endOfFile ∉ tokens :=
  spells.void_notMem (.inr (.inr rfl))

theorem SpellsOpen.void_notMem (spells : SpellsOpen tokens declarations) {token : Token}
    (void : token.IsVoid) : token ∉ tokens := by
  induction spells with
  | unended starts => exact starts.void_notMem void
  | skip isSpace _ ih => simp [void_ne_separator void isSpace, ih]
  | atRule isRule _ ih => simp [isRule.void_notMem void, ih]
  | cons spells _ ih => simp [spells.void_notMem void, void_ne_separator void (.inr rfl), ih]

/-- A semicolon at the front of a list of declarations can be left out. -/
theorem SpellsAll.of_semicolon (spells : SpellsAll (.semicolon :: tokens) declarations) :
    SpellsAll tokens declarations := by
  generalize whole : Token.semicolon :: tokens = all at spells
  cases spells with
  | nil => cases whole
  | skip isSpace further =>
    obtain ⟨-, rfl⟩ := List.cons.inj whole
    exact further
  | atRule isRule further =>
    obtain ⟨name, tail, rfl, -⟩ := skipAtRule_of_atRule isRule
    cases whole
  | last spells | cons spells further =>
    obtain ⟨name, tail, rfl⟩ := spells.exists_name
    cases whole

theorem SpellsOpen.of_semicolon (spells : SpellsOpen (.semicolon :: tokens) declarations) :
    SpellsOpen tokens declarations := by
  generalize whole : Token.semicolon :: tokens = all at spells
  cases spells with
  | unended starts =>
    obtain ⟨name, tail, components, rfl, -⟩ := starts.exists_eq
    cases whole
  | skip isSpace further =>
    obtain ⟨-, rfl⟩ := List.cons.inj whole
    exact further
  | atRule isRule further =>
    obtain ⟨name, tail, rfl, -⟩ := skipAtRule_of_atRule isRule
    cases whole
  | cons spells further =>
    obtain ⟨name, tail, rfl⟩ := spells.exists_name
    cases whole

theorem eq_terminator_of_readAll {next : Token} (ends : next = .endOfFile ∨ next = .rightBrace)
    (accepted : readAll inBlock (next :: rest) = .ok declarations left) :
    next = terminator inBlock ∧ declarations = [] ∧ left = next :: rest := by
  rcases ends with rfl | rfl
  all_goals
    rw [readAll] at accepted
    cases inBlock <;> cases accepted
    exact ⟨rfl, rfl, rfl⟩

/-- **What is read as a list of declarations is one**, or such a list with an at-rule behind it that
goes on to the end. -/
theorem exists_spells_of_readAll (ends : EndsOnce tokens)
    (accepted : readAll inBlock tokens = .ok declarations left) :
    (∃ spelling rest, left = terminator inBlock :: rest ∧ tokens = spelling ++ left ∧
      SpellsAll spelling declarations) ∨
    (inBlock = false ∧ ∃ spelling, tokens = spelling ++ [.endOfFile] ∧
      SpellsOpen spelling declarations) := by
  fun_induction readAll inBlock tokens generalizing declarations left with
  | case1 | case5 | case8 => exact absurd accepted Outcome.refuse_ne_ok
  | case2 => exact absurd ends not_endsOnce_nil
  | case3 rest ih =>
    rcases ih (ends.cons (by simp)) accepted with
      ⟨spelling, further, rfl, split, spells⟩ | ⟨outside, spelling, split, spells⟩
    · exact .inl ⟨.whitespace :: spelling, further, rfl, congrArg _ split, .skip (.inl rfl) spells⟩
    · exact .inr ⟨outside, .whitespace :: spelling, congrArg _ split, .skip (.inl rfl) spells⟩
  | case4 rest ih =>
    rcases ih (ends.cons (by simp)) accepted with
      ⟨spelling, further, rfl, split, spells⟩ | ⟨outside, spelling, split, spells⟩
    · exact .inl ⟨.semicolon :: spelling, further, rfl, congrArg _ split, .skip (.inr rfl) spells⟩
    · exact .inr ⟨outside, .semicolon :: spelling, congrArg _ split, .skip (.inr rfl) spells⟩
  | case6 rest outside =>
    cases accepted
    obtain rfl := eq_false_of_ne_true outside
    exact .inl ⟨[], rest, rfl, rfl, .nil⟩
  | case7 rest inside =>
    cases accepted
    subst inside
    exact .inl ⟨[], rest, rfl, rfl, .nil⟩
  | case9 | case11 | case13 => exact absurd accepted Outcome.refuse_ne_ok
  | case10 name rest _ skipped result =>
    rename_i ih
    rcases exists_atRule_of_skipAtRule (ends.cons (by simp)) (Outcome.eq_ok result) name with
      ⟨tail, split, isRule⟩ | ⟨tail, split, nothing, starts⟩
    · rw [split, ← List.cons_append] at ends ⊢
      rcases ih (ends.of_append isRule.endOfFile_notMem) accepted with
        ⟨spelling, further, rfl, splitMore, spells⟩ | ⟨outside, spelling, splitMore, spells⟩
      · refine .inl ⟨.atKeyword name :: tail ++ spelling, further, rfl, ?_, .atRule isRule spells⟩
        rw [List.append_assoc, ← splitMore]
      · refine .inr ⟨outside, .atKeyword name :: tail ++ spelling, ?_, .atRule isRule spells⟩
        rw [List.append_assoc, ← splitMore]
    · rw [nothing, readAll] at accepted
      split at accepted
      · exact absurd accepted Outcome.refuse_ne_ok
      · next outside =>
        cases accepted
        exact .inr ⟨eq_false_of_ne_true outside, .atKeyword name :: tail, congrArg _ split,
          .unended starts⟩
  | case12 name rest _ first declaration result =>
    rename_i ih
    obtain ⟨tail, split, spells, stopped⟩ := read_eq_ok_iff.mp (Outcome.eq_ok result)
    obtain ⟨declarations, others, rfl⟩ := Outcome.map_eq_ok_iff.mp accepted
    change rest = tail ++ first.rest at split
    rw [split, ← List.cons_append] at ends ⊢
    have endsRest := ends.of_append spells.endOfFile_notMem
    generalize first.rest = following at *
    -- A semicolon is behind the declaration, or the list ends here.
    cases following with
    | nil => exact absurd endsRest not_endsOnce_nil
    | cons next following =>
      have stop := stopped next rfl
      rw [decide_eq_true_eq, or_left_comm] at stop
      rcases stop with rfl | ends
      · rcases ih endsRest others with
          ⟨spelling, further, rfl, splitMore, more⟩ | ⟨outside, spelling, splitMore, more⟩
        · cases spelling with
          | nil => cases inBlock <;> cases splitMore
          | cons _ spelling =>
            obtain ⟨rfl, rfl⟩ := List.cons.inj splitMore
            exact .inl ⟨_, further, rfl, by simp, .cons spells more.of_semicolon⟩
        · cases spelling with
          | nil => cases splitMore
          | cons _ spelling =>
            obtain ⟨rfl, rfl⟩ := List.cons.inj splitMore
            exact .inr ⟨outside, _, by simp, .cons spells more.of_semicolon⟩
      · obtain ⟨rfl, rfl, rfl⟩ := eq_terminator_of_readAll ends others
        exact .inl ⟨_, following, rfl, rfl, .last spells⟩

/-- **What is read up to a closing brace is a list of declarations.** -/
theorem exists_spellsAll_of_readAll (ends : EndsOnce tokens)
    (accepted : readAll true tokens = .ok declarations left) :
    ∃ spelling rest, left = .rightBrace :: rest ∧ tokens = spelling ++ left ∧
      SpellsAll spelling declarations := by
  rcases exists_spells_of_readAll ends accepted with spelt | ⟨inside, -⟩
  · exact spelt
  · cases inside

end

end Declaration

end PagedHtml.Css
