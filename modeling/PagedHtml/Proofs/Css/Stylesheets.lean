/-
**Style sheets are read as their grammar spells them.**

What stands between rules, at-rules and rules start with different tokens, so that the first token
tells what is read next, and the readers of each take just what the grammar spells.

* `Rule.read_of_spells`, `Rule.exists_spells_of_read`: one rule;
* `Rule.readAll_iff_spellsAll`: the rules that are read of a style sheet are those that it spells,
  and it spells rules in one way at most.
-/

import PagedHtml.Proofs.Css.Declarations

namespace PagedHtml.Css

namespace Rule

/-! ### Rules -/

section

variable {tokens rest : List Token} {rule : Rule} {rules : List Rule}

/-- The tokens before which the selectors of a rule end. -/
theorem goes_selectors_iff {spelling : List Token} {components : List Component}
    (spells : Component.Spells spelling components) :
    (∀ component ∈ components,
        decide (component.lead = .leftBrace ∨ component.lead = .rightBrace) = false) ↔
      ∀ component ∈ components, component ≠ .token .rightBrace ∧ ¬ component.IsBraced := by
  refine forall₂_congr fun component member => ?_
  rw [decide_eq_false_iff_not, not_or, Component.lead_eq_iff .rightBrace rfl,
    spells.lead_eq_leftBrace_iff member, and_comm]

theorem Spells.void_notMem (spells : Spells tokens rule) {token : Token} (void : token.IsVoid) :
    token ∉ tokens := by
  cases spells with
  | mk spells _ _ _ _ block =>
    have notOpening : token ≠ .leftBrace := by
      rintro rfl
      rcases void with same | same | same <;> cases same
    have notClosing : token ≠ .rightBrace := by
      rintro rfl
      rcases void with same | same | same <;> cases same
    simp [spells.void_notMem void, block.void_notMem void, notOpening, notClosing]

theorem Spells.endOfFile_notMem (spells : Spells tokens rule) : .endOfFile ∉ tokens :=
  spells.void_notMem (.inr (.inr rfl))

/-- What is left between commas is nothing only if one selector has nothing in it. -/
theorem ne_nil_of_visible {selectors : List (List Component)} (nonempty : selectors ≠ [])
    (visible : ∀ selector ∈ selectors, .token .comma ∉ selector ∧ selectorText selector ≠ "") :
    [Component.token .comma].intercalate selectors ≠ [] := by
  intro nothing
  cases selectors with
  | nil => exact nonempty rfl
  | cons first others =>
    cases others with
    | nil =>
      rw [List.intercalate_singleton] at nothing
      exact (visible first List.mem_cons_self).2 (by rw [nothing]; rfl)
    | cons next others =>
      rw [List.intercalate_cons_cons] at nothing
      simp at nothing

/-- That a token starts a rule. -/
def IsStart (token : Token) : Prop :=
  token ≠ .whitespace ∧ token ≠ .commentOpen ∧ token ≠ .commentClose ∧ token ≠ .endOfFile ∧
    token ≠ .rightBrace ∧ ∀ name, token ≠ .atKeyword name

/-- A rule starts with a token that is read as the start of one. -/
theorem Spells.exists_first (spells : Spells tokens rule) :
    ∃ first further, tokens = first :: further ∧ IsStart first := by
  cases spells with
  | @mk tokens block selectors declarations spells avoids first nonempty visible body =>
    cases components : [Component.token .comma].intercalate selectors with
    | nil => exact absurd components (ne_nil_of_visible nonempty visible)
    | cons component others =>
      rw [components] at spells avoids first
      have once := spells.endOfFile_notMem
      obtain ⟨further, rfl⟩ := spells.exists_lead
      have notBetween := first component rfl
      simp only [IsBetween, not_or, not_exists] at notBetween
      refine ⟨component.lead, _, rfl, ?_, ?_, ?_, ?_, ?_, fun name => ?_⟩
      · exact mt (Component.lead_eq_iff _ rfl).mp notBetween.1
      · exact mt (Component.lead_eq_iff _ rfl).mp notBetween.2.1
      · exact mt (Component.lead_eq_iff _ rfl).mp notBetween.2.2.1
      · exact fun isEnd => once (isEnd ▸ List.mem_cons_self)
      · exact mt (Component.lead_eq_iff _ rfl).mp (avoids component List.mem_cons_self).1
      · exact mt (Component.lead_eq_iff _ rfl).mp (notBetween.2.2.2 name)

/-- **A rule is read.** -/
theorem read_of_spells (spells : Spells tokens rule) (rest : List Token) :
    read (tokens ++ rest) = .ok rule rest := by
  cases spells with
  | @mk tokens block selectors declarations spells avoids first nonempty visible body =>
    have start : Component.readUntil (fun token => token = .leftBrace ∨ token = .rightBrace)
        (tokens ++ Token.leftBrace :: (block ++ Token.rightBrace :: rest)) =
          .ok ([.token .comma].intercalate selectors)
            (Token.leftBrace :: (block ++ Token.rightBrace :: rest)) := by
      refine Component.readUntil_eq_ok_iff.mpr
        ⟨tokens, rfl, spells, (goes_selectors_iff spells).mpr avoids, fun next same => ?_⟩
      cases Option.some.inj same
      simp
    have selected := selectors?_eq_some_iff.mpr ⟨selectors, nonempty, visible, rfl, rfl⟩
    have body : Declaration.readAll true (block ++ .rightBrace :: rest) =
        .ok declarations (.rightBrace :: rest) := Declaration.readAll_of_spellsAll true body rest
    rw [List.append_assoc, List.cons_append, List.append_assoc, List.singleton_append, read, start]
    simp only [Outcome.ok] at body ⊢
    rw [selected, body]
    rfl

/-- **What is read is a rule**, if it starts with the start of one. -/
theorem exists_spells_of_read (ends : EndsOnce tokens) (accepted : read tokens = .ok rule rest)
    (start : ∀ first ∈ tokens.head?, IsStart first) :
    ∃ spelling, tokens = spelling ++ rest ∧ Spells spelling rule := by
  rw [read] at accepted
  split at accepted
  · exact absurd accepted Outcome.refuse_ne_ok
  · next components taken =>
    obtain ⟨tail, split, spells, goes, -⟩ :=
      Component.readUntil_eq_ok_iff.mp (Outcome.eq_ok taken)
    generalize (Component.readUntil _ tokens).rest = left at split accepted
    subst split
    split at accepted
    · next following =>
      split at accepted
      · exact absurd accepted Outcome.refuse_ne_ok
      · next texts selected =>
        simp only at accepted
        split at accepted
        · exact absurd accepted Outcome.refuse_ne_ok
        · next declarations body =>
          obtain ⟨block, further, closing, split, declared⟩ :=
            Declaration.exists_spellsAll_of_readAll
              ((ends.of_append spells.endOfFile_notMem).cons (by simp)) (Outcome.eq_ok body)
          rw [closing] at split accepted
          cases accepted
          obtain ⟨selectors, nonempty, visible, rfl, rfl⟩ := selectors?_eq_some_iff.mp selected
          refine ⟨_, ?_, .mk spells ((goes_selectors_iff spells).mp goes) ?_ nonempty visible
            declared⟩
          · rw [split]
            simp
          · intro first same between
            cases components : [Component.token .comma].intercalate selectors with
            | nil =>
              rw [components] at same
              cases same
            | cons component others =>
              rw [components] at same spells
              cases Option.some.inj same
              obtain ⟨further, rfl⟩ := spells.exists_lead
              obtain ⟨notSpace, notOpen, notClose, -, -, notAt⟩ := start _ rfl
              rcases between with rfl | rfl | rfl | ⟨name, rfl⟩
              · exact notSpace rfl
              · exact notOpen rfl
              · exact notClose rfl
              · exact notAt name rfl
    · exact absurd accepted Outcome.refuse_ne_ok
    · exact absurd accepted Outcome.refuse_ne_ok

/-! ### Style sheets -/

theorem readAll_atRule {name : String} (skipped : skipAtRule tokens = .ok () rest) :
    readAll (.atKeyword name :: tokens) = readAll rest := by
  rw [readAll, skipped]
  rfl

/-- A token that starts a rule is read with the rule. -/
theorem readAll_start_eq {first : Token} (start : IsStart first) (tokens : List Token) :
    readAll (first :: tokens) =
      match (read (first :: tokens)).result with
      | .error fault => .refuse fault (read (first :: tokens)).rest
      | .ok rule => (readAll (read (first :: tokens)).rest).map (rule :: ·) := by
  obtain ⟨notSpace, notOpen, notClose, notEnd, notBrace, notAt⟩ := start
  rw [readAll.eq_def]
  split
  · next same => cases same
  · next same => exact absurd (List.cons.inj same).1 notSpace
  · next same => exact absurd (List.cons.inj same).1 notOpen
  · next same => exact absurd (List.cons.inj same).1 notClose
  · next same => exact absurd (List.cons.inj same).1 notEnd
  · next same => exact absurd (List.cons.inj same).1 notBrace
  · next same => exact absurd (List.cons.inj same).1 (notAt _)
  · next same =>
    obtain ⟨rfl, rfl⟩ := List.cons.inj same
    simp only
    split
    · next failed => rw [failed]
    · next found => rw [found]

theorem readAll_of_start {first : Token} (start : IsStart first)
    (accepted : read (first :: tokens) = .ok rule rest) :
    readAll (first :: tokens) = (readAll rest).map (rule :: ·) := by
  rw [readAll_start_eq start, accepted]
  rfl

theorem readAll_of_refused {first : Token} {fault : Fault} (start : IsStart first)
    (refused : read (first :: tokens) = .refuse fault rest) :
    readAll (first :: tokens) = .refuse fault rest := by
  rw [readAll_start_eq start, refused]
  rfl

/-- **A style sheet is read.** -/
theorem readAll_of_spellsAll (spells : SpellsAll tokens rules) :
    (readAll tokens).result = .ok rules := by
  induction spells with
  | done =>
    rw [readAll]
    rfl
  | skip isBetween _ ih =>
    rcases isBetween with rfl | rfl | rfl
    · rw [readAll, ih]
    · rw [readAll, ih]
    · rw [readAll, ih]
  | atRule isRule _ ih =>
    obtain ⟨name, tail, rfl, skips⟩ := skipAtRule_of_atRule isRule
    rw [List.cons_append, readAll_atRule (skips _), ih]
  | unended starts =>
    obtain ⟨name, tail, rfl, skips⟩ := skipAtRule_of_start starts
    rw [List.cons_append, readAll_atRule skips, readAll]
    rfl
  | @cons _ behind _ _ spells _ ih =>
    obtain ⟨first, further, rfl, start⟩ := spells.exists_first
    have accepted := read_of_spells spells behind
    rw [List.cons_append] at accepted ⊢
    rw [readAll_of_start start accepted, Outcome.map, ih]
    rfl

theorem spellsAll_of_readAll (ends : EndsOnce tokens)
    (accepted : (readAll tokens).result = .ok rules) : SpellsAll tokens rules := by
  fun_induction readAll tokens generalizing rules with
  | case1 => exact absurd ends not_endsOnce_nil
  | case2 rest ih => exact .skip (.inl rfl) (ih (ends.cons (by simp)) accepted)
  | case3 rest ih => exact .skip (.inr (.inl rfl)) (ih (ends.cons (by simp)) accepted)
  | case4 rest ih => exact .skip (.inr (.inr rfl)) (ih (ends.cons (by simp)) accepted)
  | case5 rest =>
    cases accepted
    have alone : EndsOnce ([] ++ .endOfFile :: rest) := ends
    obtain rfl := alone.eq_nil List.not_mem_nil
    exact .done
  | case6 | case7 | case9 => cases accepted
  | case8 name rest _ skipped result =>
    rename_i ih
    rcases exists_atRule_of_skipAtRule (ends.cons (by simp)) (Outcome.eq_ok result) name with
      ⟨tail, split, isRule⟩ | ⟨tail, split, nothing, starts⟩
    · rw [split, ← List.cons_append] at ends ⊢
      exact .atRule isRule (ih (ends.of_append isRule.endOfFile_notMem) accepted)
    · rw [nothing, readAll] at accepted
      cases accepted
      rw [split, ← List.cons_append]
      exact .unended starts
  | case10 other rest notSpace notOpen notClose notEnd notBrace notAt first rule result =>
    rename_i ih
    obtain ⟨others, further, rfl⟩ := Outcome.map_eq_ok_iff.mp (Outcome.eq_ok accepted)
    obtain ⟨spelling, split, spells⟩ := exists_spells_of_read ends (Outcome.eq_ok result) (by
      intro next same
      cases Option.some.inj same
      exact ⟨notSpace, notOpen, notClose, notEnd, notBrace, notAt⟩)
    change other :: rest = spelling ++ first.rest at split
    rw [split] at ends ⊢
    exact .cons spells
      (ih (ends.of_append spells.endOfFile_notMem) (congrArg Outcome.result further))

/-- **The reader of style sheets accepts its grammar**, and makes of tokens what they spell. -/
theorem readAll_iff_spellsAll (ends : EndsOnce tokens) (rules : List Rule) :
    ((readAll tokens).result = .ok rules ↔ SpellsAll tokens rules) ∧
      ∀ others, SpellsAll tokens rules → SpellsAll tokens others → others = rules := by
  refine ⟨⟨spellsAll_of_readAll ends, readAll_of_spellsAll⟩, fun others one other => ?_⟩
  have same := (readAll_of_spellsAll other).symm.trans (readAll_of_spellsAll one)
  exact Except.ok.inj same

end

/-- An at-rule and a rule with one declaration. -/
theorem readAll_spelt :
    let tokens : List Token := [.atKeyword "page", .semicolon, .ident "p", .leftBrace,
      .ident "color", .colon, .ident "red", .rightBrace, .endOfFile]
    EndsOnce tokens ∧ (readAll tokens).result =
      .ok [⟨["p"], [⟨"color", [.token (.ident "red")], false⟩]⟩] := by
  intro tokens
  have ends : EndsOnce tokens := ⟨tokens.dropLast, rfl, by decide⟩
  have word (name : String) : Component.Spells [.ident name] [.token (.ident name)] :=
    .plain ⟨rfl, nofun, nofun, nofun⟩ .nil
  have declared : Declaration.Spells [.ident "color", .colon, .ident "red"]
      ⟨"color", [.token (.ident "red")], false⟩ :=
    @Declaration.Spells.mk "color" [] [] _ _ _ _ (by simp) (by simp) (word "red") (by simp)
      (by simp) (Declaration.stripImportant_eq_iff.mp rfl)
  have visible : selectorText [.token (.ident "p")] ≠ "" := by decide
  have spelt : Rule.Spells _ ⟨[[.token (.ident "p")]].map selectorText, _⟩ :=
    .mk (word "p") (by simp [Component.IsBraced]) (by simp [IsBetween]) (by simp)
      (by simpa using visible) (.last declared)
  exact ⟨ends, (readAll_iff_spellsAll ends _).1.mpr
    (.atRule (.semicolon (@AtRule.Start.mk "page" [] [] .nil (by simp))) (.cons spelt .done))⟩

end Rule

end PagedHtml.Css
