/-
**Style sheets one behind the other.**

A style sheet that is read to its end has no rule open there, and its last token ends before a line
break. So the rules of two style sheets with a line break between them are those of the one and of
the other. Two things could still reach over the line break: an at-rule that nothing ends, and a
backslash. Neither stands in a sheet without backslashes and at-keywords (`IsSelfContained`).

* `Rule.SpellsAll.append`: tokens that spell rules, one list behind the other;
* `parseRules_newline`: two style sheets with a line break between them;
* `parseRules_lines`: any number of them.
-/

import PagedHtml.Proofs.Css.Lexing
import PagedHtml.Proofs.Css.Stylesheets

namespace PagedHtml.Css

open Text (isSpace)

/-! ### Tokens one behind the other -/

namespace Rule.SpellsAll

variable {tokens : List Token} {rules : List Rule}

theorem void_notMem (spells : SpellsAll tokens rules) {token : Token} (void : token.IsVoid)
    (notEnd : token ≠ .endOfFile) : token ∉ tokens := by
  induction spells with
  | done => simpa using notEnd
  | skip isBetween _ ih =>
    rw [List.mem_cons, not_or]
    refine ⟨?_, ih⟩
    rintro rfl
    rcases isBetween with rfl | rfl | rfl <;> exact void.not_isPlain ⟨rfl, nofun, nofun, nofun⟩
  | atRule isRule _ ih => simp [isRule.void_notMem void, ih]
  | unended starts => simp [starts.void_notMem void, notEnd]
  | cons spells _ ih => simp [spells.void_notMem void, ih]

/-- **The rules of tokens without at-keywords go before those of the tokens behind them.** -/
theorem append (spells : SpellsAll tokens rules) (noKeyword : ∀ name, .atKeyword name ∉ tokens)
    {further : List Token} {others : List Rule} (behind : SpellsAll further others) :
    ∃ body, tokens = body ++ [.endOfFile] ∧ SpellsAll (body ++ further) (rules ++ others) := by
  induction spells with
  | done => exact ⟨[], rfl, behind⟩
  | skip isBetween _ ih =>
    obtain ⟨body, rfl, joined⟩ :=
      ih fun name member => noKeyword name (List.mem_cons_of_mem _ member)
    exact ⟨_ :: body, rfl, .skip isBetween joined⟩
  | @atRule rule _ _ isRule _ ih =>
    obtain ⟨body, rfl, joined⟩ :=
      ih fun name member => noKeyword name (List.mem_append_right _ member)
    exact ⟨rule ++ body, (List.append_assoc ..).symm, List.append_assoc .. ▸ .atRule isRule joined⟩
  | unended starts =>
    cases starts with
    | @mk name => exact absurd (by simp) (noKeyword name)
  | @cons first _ rule _ spells _ ih =>
    obtain ⟨body, rfl, joined⟩ :=
      ih fun name member => noKeyword name (List.mem_append_right _ member)
    exact ⟨first ++ body, (List.append_assoc ..).symm, List.append_assoc .. ▸ .cons spells joined⟩

end Rule.SpellsAll

/-! ### Characters that are read as rules -/

/-- That characters are read as rules, and do not break off inside a token. -/
def ReadsRules (chars : List Char) (rules : List Rule) : Prop :=
  (tokenizeChars chars).faults = [] ∧
    (Rule.readAll (tokenizeChars chars).tokens).result = .ok rules

variable {chars others : List Char} {rules more : List Rule}

theorem parseRules_eq_ok_iff {text : String} :
    parseRules text = .ok rules ↔ ReadsRules text.toList rules := by
  constructor
  · intro accepted
    rw [parseRules] at accepted
    cases lexed : tokensOf text with
    | error fault =>
      rw [lexed] at accepted
      cases accepted
    | ok tokens =>
      rw [lexed] at accepted
      obtain ⟨whole, rfl⟩ := tokensOf_eq_ok_iff.mp lexed
      exact ⟨whole, accepted⟩
  · intro reads
    rw [parseRules, tokensOf_eq_ok_iff.mpr ⟨reads.1, rfl⟩]
    exact reads.2

theorem ReadsRules.spellsAll (reads : ReadsRules chars rules) :
    Rule.SpellsAll (tokenizeChars chars).tokens rules :=
  Rule.spellsAll_of_readAll (tokenizeChars_endsOnce chars) reads.2

theorem readsRules_of_spellsAll (whole : (tokenizeChars chars).faults = [])
    (spells : Rule.SpellsAll (tokenizeChars chars).tokens rules) : ReadsRules chars rules :=
  ⟨whole, Rule.readAll_of_spellsAll spells⟩

/-- Spaces in front of rules make no difference. -/
theorem readsRules_dropWhile_iff :
    ReadsRules (chars.dropWhile isSpace) rules ↔ ReadsRules chars rules := by
  by_cases space : chars.head?.any isSpace = true
  · rw [ReadsRules, ReadsRules, tokenizeChars_of_space space, Rule.readAll]
  · cases chars with
    | nil => rfl
    | cons c rest =>
      have visible : ¬ isSpace c = true := space
      rw [List.dropWhile_cons_of_neg visible]

theorem readsRules_nil : ReadsRules [] [] := by
  rw [ReadsRules, tokenizeChars_of_nil skipComments?_nil, Rule.readAll]
  exact ⟨rfl, rfl⟩

/-- Characters that hold neither a backslash nor an at-keyword. -/
def IsSelfContained (chars : List Char) : Prop :=
  '\\' ∉ chars ∧ ∀ name, .atKeyword name ∉ (tokenizeChars chars).tokens

/-- **Rules before a line break go before the rules behind it.** -/
theorem ReadsRules.append (reads : ReadsRules chars rules) (contained : IsSelfContained chars)
    (behind : ReadsRules others more) : ReadsRules (chars ++ '\n' :: others) (rules ++ more) := by
  have spells := reads.spellsAll
  obtain ⟨body, split, -⟩ := tokenizeChars_endsOnce chars
  have sound : .badUrl ∉ (tokenizeChars chars).tokens :=
    spells.void_notMem (.inr (.inl rfl)) (by simp)
  obtain ⟨after, left, joined⟩ :=
    tokenizeChars_append isStop_newline contained.1 reads.1 sound split others
  -- Whether the text ends in spaces or not, what is left is read as what is behind the line break.
  have readsAfter : ReadsRules after more := by
    have newline : ReadsRules ('\n' :: others) more := by
      rw [← readsRules_dropWhile_iff, List.dropWhile_cons_of_pos (by decide),
        readsRules_dropWhile_iff]
      exact behind
    rcases left with rfl | rfl
    · exact newline
    · exact readsRules_dropWhile_iff.mpr newline
  obtain ⟨front, same, spellsJoined⟩ := spells.append contained.2 readsAfter.spellsAll
  obtain rfl := List.append_cancel_right (split.symm.trans same)
  refine readsRules_of_spellsAll ?_ ?_
  · rw [joined]
    exact readsAfter.1
  · rw [joined]
    exact spellsJoined

/-! ### Texts -/

/-- **Two style sheets with a line break between them** have the rules of both. -/
theorem parseRules_newline {text other : String} (accepted : parseRules text = .ok rules)
    (contained : IsSelfContained text.toList) (acceptedOther : parseRules other = .ok more) :
    parseRules (text ++ "\n" ++ other) = .ok (rules ++ more) := by
  have joined := (parseRules_eq_ok_iff.mp accepted).append contained
    (parseRules_eq_ok_iff.mp acceptedOther)
  rw [parseRules_eq_ok_iff]
  simpa using joined

/-- **Style sheets line by line** have the rules of all of them, in order. -/
theorem parseRules_lines {texts : List String} {sheets : List (List Rule)}
    (accepted : List.Forall₂ (fun text rules => parseRules text = .ok rules) texts sheets)
    (contained : ∀ text ∈ texts.dropLast, IsSelfContained text.toList) :
    parseRules ("\n".intercalate texts) = .ok sheets.flatten := by
  induction accepted with
  | nil => exact parseRules_eq_ok_iff.mpr readsRules_nil
  | @cons text rules texts sheets here later ih =>
    cases later with
    | nil =>
      rw [String.intercalate_singleton, List.flatten_singleton]
      exact here
    | cons =>
      obtain ⟨containedHere, containedLater⟩ := List.forall_mem_cons.mp contained
      rw [String.intercalate_cons_cons, List.flatten_cons]
      exact parseRules_newline here containedHere (ih containedLater)

end PagedHtml.Css
