/-
**A text that is read as declarations, in the braces of a rule.**

The braces of a rule hold what a `style` attribute holds, with one difference: in an attribute an
at-rule may go on to the end of the text, whereas in braces it meets the closing brace, where it is
refused (`Declaration.readAll_of_spellsOpen_rightBrace`). All other declarations mean in braces what
they mean alone.

* `parseDeclarations_eq_ok_iff`: the tokens of a text are read as declarations just if they spell
  them, perhaps with an at-rule behind them that nothing ends;
* `parseRules_block_iff`: a text without backslashes that is read as declarations is read as the
  same declarations in the braces of a rule, unless it leaves an at-rule open.
-/

import PagedHtml.Proofs.Css.Lexing
import PagedHtml.Proofs.Css.Stylesheets

namespace PagedHtml.Css

/-! ### An at-rule that nothing ends -/

section

variable {tokens : List Token} {declarations : List Declaration}

/-- In braces an at-rule that nothing ends is refused at the closing brace. -/
theorem skipAtRule_of_start_rightBrace {start : List Token} (starts : AtRule.Start start)
    (rest : List Token) :
    ∃ name tail, start = .atKeyword name :: tail ∧
      skipAtRule (tail ++ .rightBrace :: rest) =
        .refuse .strayClosingBrace (.rightBrace :: rest) := by
  obtain ⟨name, tail, components, rfl, spells, avoids⟩ := starts.exists_eq
  refine ⟨name, tail, rfl, ?_⟩
  have prelude : Component.readUntil (fun token =>
      token = .semicolon ∨ token = .leftBrace ∨ token = .rightBrace) (tail ++ .rightBrace :: rest) =
        .ok components (.rightBrace :: rest) := by
    refine Component.readUntil_eq_ok_iff.mpr
      ⟨tail, rfl, spells, (goes_atRule_iff spells).mpr avoids, fun first same => ?_⟩
    cases Option.some.inj same
    simp
  rw [skipAtRule, prelude]
  rfl

namespace Declaration

/-- Declarations in front of an at-rule that nothing ends are read before it. -/
theorem SpellsOpen.exists_start (spells : SpellsOpen tokens declarations) :
    ∃ start, AtRule.Start start ∧ ∀ inBlock rest,
      readAll inBlock (tokens ++ rest) =
        (readAll inBlock (start ++ rest)).map (declarations ++ ·) := by
  induction spells with
  | @unended start starts =>
    refine ⟨start, starts, fun inBlock rest => ?_⟩
    generalize readAll inBlock (start ++ rest) = outcome
    obtain ⟨result, left⟩ := outcome
    cases result <;> rfl
  | skip isSpace _ ih =>
    obtain ⟨start, starts, reads⟩ := ih
    refine ⟨start, starts, fun inBlock rest => ?_⟩
    rcases isSpace with rfl | rfl
    · rw [List.cons_append, readAll, reads]
    · rw [List.cons_append, readAll, reads]
  | atRule isRule _ ih =>
    obtain ⟨start, starts, reads⟩ := ih
    obtain ⟨name, tail, rfl, skips⟩ := skipAtRule_of_atRule isRule
    refine ⟨start, starts, fun inBlock rest => ?_⟩
    rw [List.append_assoc, List.cons_append, readAll_atRule (skips _), reads]
  | cons spells _ ih =>
    obtain ⟨start, starts, reads⟩ := ih
    refine ⟨start, starts, fun inBlock rest => ?_⟩
    rw [List.append_assoc, List.cons_append, readAll_of_spells spells, readAll, reads]
    · generalize readAll inBlock (start ++ rest) = outcome
      obtain ⟨result, left⟩ := outcome
      cases result <;> rfl
    · rintro next same
      cases Option.some.inj same
      simp

/-- **Declarations that leave an at-rule open are refused in braces.** -/
theorem readAll_of_spellsOpen_rightBrace (spells : SpellsOpen tokens declarations)
    (rest : List Token) :
    readAll true (tokens ++ .rightBrace :: rest) =
      .refuse .strayClosingBrace (.rightBrace :: rest) := by
  obtain ⟨start, starts, reads⟩ := spells.exists_start
  obtain ⟨name, tail, rfl, refused⟩ := skipAtRule_of_start_rightBrace starts rest
  rw [reads, List.cons_append, readAll, refused]
  rfl

/-- Where nothing is around them they are read to the end. -/
theorem readAll_of_spellsOpen_end (spells : SpellsOpen tokens declarations) :
    readAll false (tokens ++ [.endOfFile]) = .ok declarations [] := by
  obtain ⟨start, starts, reads⟩ := spells.exists_start
  obtain ⟨name, tail, rfl, skips⟩ := skipAtRule_of_start starts
  rw [reads, List.cons_append, readAll_atRule skips, readAll]
  exact congrArg (Outcome.ok · []) (List.append_nil declarations)

end Declaration

/-! ### A rule around declarations -/

namespace Rule

theorem isStart_ident (name : String) : IsStart (.ident name) :=
  ⟨nofun, nofun, nofun, nofun, nofun, nofun⟩

theorem spells_word (name : String) :
    Component.Spells [.ident name] [.token (.ident name)] :=
  .plain ⟨rfl, nofun, nofun, nofun⟩ .nil

/-- A rule around declarations is read with them. -/
theorem readAll_of_declarations (spells : Declaration.SpellsAll tokens declarations) :
    (readAll (.ident "p" :: .leftBrace :: (tokens ++ [.rightBrace, .endOfFile]))).result =
      .ok [⟨["p"], declarations⟩] := by
  have visible : selectorText [.token (.ident "p")] ≠ "" := by decide
  have rule : Spells _ ⟨[[.token (.ident "p")]].map selectorText, declarations⟩ :=
    .mk (spells_word "p") (by simp [Component.IsBraced]) (by simp [IsBetween]) (by simp)
      (by simpa using visible) spells
  have sheet := readAll_of_spellsAll (.cons rule .done)
  have text : selectorText [.token (.ident "p")] = "p" := by decide +kernel
  rw [List.map_singleton, text] at sheet
  simpa using sheet

/-- What is refused between its braces is refused of a rule. -/
theorem readAll_of_refused_block {block : List Token} {fault : Fault} {left : List Token}
    (refused : Declaration.readAll true block = .refuse fault left) :
    readAll (.ident "p" :: .leftBrace :: block) = .refuse fault left := by
  have prelude : Component.readUntil (fun token => token = .leftBrace ∨ token = .rightBrace)
      (.ident "p" :: .leftBrace :: block) = .ok [.token (.ident "p")] (.leftBrace :: block) := by
    refine Component.readUntil_eq_ok_iff.mpr
      ⟨[.ident "p"], rfl, spells_word "p", by simp [Component.lead], ?_⟩
    intro next same
    cases Option.some.inj same
    simp
  have selected : selectors? [.token (.ident "p")] = some ["p"] := by decide +kernel
  refine readAll_of_refused (isStart_ident "p") ?_
  rw [read, prelude]
  simp only [Outcome.ok]
  rw [selected, refused]
  rfl

end Rule

end

/-! ### Texts -/

/-- **That a text leaves an at-rule open**: its tokens spell declarations with an at-rule behind
them that nothing but the end of the text ends. -/
def LeavesAtRuleOpen (text : String) : Prop :=
  ∃ tokens declarations, tokensOf text = .ok (tokens ++ [.endOfFile]) ∧
    Declaration.SpellsOpen tokens declarations

variable {text : String} {declarations : List Declaration}

/-- **What is read as declarations is what spells them**, perhaps with an at-rule left open behind
them. -/
theorem parseDeclarations_eq_ok_iff :
    parseDeclarations text = .ok declarations ↔
      ∃ tokens, tokensOf text = .ok (tokens ++ [.endOfFile]) ∧
        (Declaration.SpellsAll tokens declarations ∨
          Declaration.SpellsOpen tokens declarations) := by
  rw [parseDeclarations]
  constructor
  · intro accepted
    cases lexed : tokensOf text with
    | error fault =>
      rw [lexed] at accepted
      cases accepted
    | ok tokens =>
      rw [lexed] at accepted
      have ends : EndsOnce tokens := by
        obtain ⟨-, rfl⟩ := tokensOf_eq_ok_iff.mp lexed
        exact tokenizeChars_endsOnce text.toList
      rcases Declaration.exists_spells_of_readAll ends (Outcome.eq_ok accepted) with
        ⟨spelling, rest, last, split, spells⟩ | ⟨-, spelling, split, spells⟩
      · rw [last] at split
        subst split
        obtain rfl := ends.eq_nil spells.endOfFile_notMem
        exact ⟨spelling, rfl, .inl spells⟩
      · exact ⟨spelling, congrArg _ split, .inr spells⟩
  · rintro ⟨tokens, lexed, spells | leaves⟩
    · rw [lexed]
      exact congrArg Outcome.result (Declaration.readAll_of_spellsAll false spells [])
    · rw [lexed]
      exact congrArg Outcome.result (Declaration.readAll_of_spellsOpen_end leaves)

/-- In the braces of a rule, declarations are the declarations of the rule. -/
theorem parseRules_of_spellsAll {tokens : List Token} (plain : '\\' ∉ text.toList)
    (lexed : tokensOf text = .ok (tokens ++ [.endOfFile]))
    (spells : Declaration.SpellsAll tokens declarations) :
    parseRules ("p\x7b" ++ text ++ "\x7d") = .ok [⟨["p"], declarations⟩] := by
  have block := tokensOf_block plain lexed (spells.void_notMem (.inr (.inl rfl)))
  rw [parseRules, block]
  exact Rule.readAll_of_declarations spells

/-- In the braces of a rule, an at-rule left open is refused. -/
theorem parseRules_of_leavesAtRuleOpen (plain : '\\' ∉ text.toList)
    (leaves : LeavesAtRuleOpen text) :
    parseRules ("p\x7b" ++ text ++ "\x7d") = .error .strayClosingBrace := by
  obtain ⟨tokens, declarations, lexed, spells⟩ := leaves
  have block := tokensOf_block plain lexed (spells.void_notMem (.inr (.inl rfl)))
  rw [parseRules, block]
  have refused := Declaration.readAll_of_spellsOpen_rightBrace spells [.endOfFile]
  exact congrArg Outcome.result (Rule.readAll_of_refused_block refused)

/-- A text whose tokens spell declarations leaves no at-rule open. -/
theorem not_leavesAtRuleOpen_of_spellsAll {tokens : List Token}
    (lexed : tokensOf text = .ok (tokens ++ [.endOfFile]))
    (spells : Declaration.SpellsAll tokens declarations) : ¬ LeavesAtRuleOpen text := by
  rintro ⟨others, _, same, leaves⟩
  rw [lexed] at same
  obtain rfl := List.append_cancel_right (Except.ok.inj same)
  have accepted := Declaration.readAll_of_spellsAll true spells []
  have refused := Declaration.readAll_of_spellsOpen_rightBrace leaves []
  exact absurd (refused.symm.trans accepted) Outcome.refuse_ne_ok

/-- **A text that is read as declarations is read as the same declarations in the braces of a rule
just if it leaves no at-rule open**; if it leaves one open, the closing brace is refused. -/
theorem parseRules_block_iff (plain : '\\' ∉ text.toList)
    (accepted : parseDeclarations text = .ok declarations) :
    (parseRules ("p\x7b" ++ text ++ "\x7d") = .ok [⟨["p"], declarations⟩] ↔
        ¬ LeavesAtRuleOpen text) ∧
      (LeavesAtRuleOpen text →
        parseRules ("p\x7b" ++ text ++ "\x7d") = .error .strayClosingBrace) := by
  refine ⟨⟨fun same leaves => ?_, fun closed => ?_⟩, parseRules_of_leavesAtRuleOpen plain⟩
  · rw [parseRules_of_leavesAtRuleOpen plain leaves] at same
    cases same
  · obtain ⟨tokens, lexed, spells | leaves⟩ := parseDeclarations_eq_ok_iff.mp accepted
    · exact parseRules_of_spellsAll plain lexed spells
    · exact absurd ⟨tokens, declarations, lexed, leaves⟩ closed

/-- An at-rule that a semicolon ends, and a declaration behind it. -/
theorem parseRules_block_page :
    let text := "@page; color: red"
    let declarations : List Declaration := [⟨"color", [.token (.ident "red")], false⟩]
    '\\' ∉ text.toList ∧ parseDeclarations text = .ok declarations ∧
      parseRules ("p\x7b" ++ text ++ "\x7d") = .ok [⟨["p"], declarations⟩] := by
  intro text declarations
  have plain : '\\' ∉ text.toList := by decide +kernel
  have lexed : tokensOf text = .ok ([.atKeyword "page", .semicolon, .whitespace, .ident "color",
      .colon, .whitespace, .ident "red"] ++ [.endOfFile]) :=
    tokensOf_eq_ok_iff.mpr ⟨by decide +kernel, by decide +kernel⟩
  have declared : Declaration.Spells [.ident "color", .colon, .whitespace, .ident "red"]
      ⟨"color", [.token (.ident "red")], false⟩ :=
    @Declaration.Spells.mk "color" [] [.whitespace] _ _ _ _ (by simp) (by simp)
      (Rule.spells_word "red") (by simp) (by simp) (Declaration.stripImportant_eq_iff.mp rfl)
  have spells : Declaration.SpellsAll _ declarations :=
    .atRule (.semicolon (@AtRule.Start.mk "page" [] [] .nil (by simp)))
      (.skip (.inl rfl) (.last declared))
  have accepted := parseDeclarations_eq_ok_iff.mpr ⟨_, lexed, .inl spells⟩
  exact ⟨plain, accepted,
    (parseRules_block_iff plain accepted).1.mpr (not_leavesAtRuleOpen_of_spellsAll lexed spells)⟩

/-- An at-rule that nothing ends is no declaration, and in the braces of a rule it is refused. -/
theorem parseRules_block_unended :
    let text := "@x"
    '\\' ∉ text.toList ∧ parseDeclarations text = .ok [] ∧
      parseRules ("p\x7b" ++ text ++ "\x7d") = .error .strayClosingBrace := by
  intro text
  have plain : '\\' ∉ text.toList := by decide +kernel
  have lexed : tokensOf text = .ok ([.atKeyword "x"] ++ [.endOfFile]) :=
    tokensOf_eq_ok_iff.mpr ⟨by decide +kernel, by decide +kernel⟩
  have leaves : Declaration.SpellsOpen [.atKeyword "x"] [] :=
    .unended (@AtRule.Start.mk "x" [] [] .nil (by simp))
  exact ⟨plain, parseDeclarations_eq_ok_iff.mpr ⟨_, lexed, .inr leaves⟩,
    parseRules_of_leavesAtRuleOpen plain ⟨_, _, lexed, leaves⟩⟩

end PagedHtml.Css
