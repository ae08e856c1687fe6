/-
**A declaration loses none of the tokens that it is read from.**

The tokens that a declaration takes are its name, a colon, and the tokens of its value as it was
read (`Component.tokensAll`), with spaces where one likes. The value that is kept is the front of
the one that was read: what is left out are the spaces at the end and the mark of importance, if
there is one.

* `Component.Spells.isPlain_of_holds`: a value holds only plain tokens, however deep;
* `Declaration.Annotated.tokensAll_eq`: the tokens of a value, by what is kept of it;
* `Declaration.Annotated.important_iff`: which values end with a mark of importance;
* `Declaration.read_consumes`: what a declaration takes, what it holds, and where it ends.
-/

import PagedHtml.Proofs.Css.Writing

namespace PagedHtml.Css

/-! ### Components at any depth -/

namespace Component

/-- **That a component stands among others, or anywhere inside of them.** -/
inductive Holds : List Component → Component → Prop
  | here {components : List Component} {component : Component} :
      component ∈ components → Holds components component
  | function {components arguments : List Component} {name : String} {component : Component} :
      .function name arguments ∈ components → Holds arguments component →
      Holds components component
  | block {components contents : List Component} {bracket : Bracket} {component : Component} :
      .block bracket contents ∈ components → Holds contents component →
      Holds components component

variable {tokens : List Token} {components contents : List Component}

theorem Holds.mono {others : List Component} {component : Component}
    (holds : Holds components component) (within : components ⊆ others) :
    Holds others component := by
  cases holds with
  | here member => exact .here (within member)
  | function member inside => exact .function (within member) inside
  | block member inside => exact .block (within member) inside

/-- What a spelt component holds is spelt, too. -/
theorem Spells.exists_inside (spells : Spells tokens components) (opening : Opening)
    (member : opening.close contents ∈ components) : ∃ inside, Spells inside contents := by
  induction spells with
  | nil => cases member
  | plain _ _ ih =>
    rcases List.mem_cons.mp member with same | later
    · exact absurd same (close_ne_token _ _ _)
    · exact ih later
  | @nested _ other _ _ held _ _ spellsInside _ _ _ ih =>
    rcases List.mem_cons.mp member with same | later
    · have sameContents : contents = held := by
        cases opening <;> cases other <;> cases same <;> rfl
      exact ⟨_, sameContents ▸ spellsInside⟩
    · exact ih later

/-- **However deep it stands, a token of a value is plain.** -/
theorem Spells.isPlain_of_holds {token : Token} (spells : Spells tokens components)
    (holds : Holds components (.token token)) : token.IsPlain := by
  generalize target : Component.token token = component at holds
  induction holds generalizing tokens with
  | here member =>
    subst target
    exact spells.isPlain member
  | @function _ arguments name _ member _ ih =>
    obtain ⟨inside, spellsInside⟩ := spells.exists_inside (.function name) member
    exact ih spellsInside target
  | @block _ contents bracket _ member _ ih =>
    obtain ⟨inside, spellsInside⟩ := spells.exists_inside (.block bracket) member
    exact ih spellsInside target

theorem tokensAll_append (first second : List Component) :
    tokensAll (first ++ second) = tokensAll first ++ tokensAll second := by
  induction first with
  | nil => rfl
  | cons component rest ih => rw [List.cons_append, tokensAll, tokensAll, ih, List.append_assoc]

/-- Spaces are spelt with spaces. -/
theorem mem_tokensAll_spaces {spaces : List Component}
    (blank : ∀ component ∈ spaces, component = .token .whitespace) :
    ∀ token ∈ tokensAll spaces, token = .whitespace := by
  intro token member
  obtain ⟨component, listed, inside⟩ := mem_tokensAll.mp member
  rw [blank component listed] at inside
  exact List.mem_singleton.mp inside

end Component

/-! ### The mark of importance -/

namespace Declaration

open Component (tokensAll tokensAll_append mem_tokensAll_spaces Holds)

/-- The tokens of a mark of importance, with spaces where one likes. -/
inductive MarkTokens : List Token → Prop
  | mk {between behind : List Token} {word : String} :
      (∀ token ∈ between, token = .whitespace) → (∀ token ∈ behind, token = .whitespace) →
      Text.equalsIgnoringCase word "important" = true →
      MarkTokens (.delim '!' :: between ++ .ident word :: behind)

/-- **That the last two components are an exclamation mark and the word `important`**, in any letter
case, if spaces are left aside. -/
def EndsMarked (components : List Component) : Prop :=
  ∃ front word, components.filter (fun component => !component.isWhitespace) =
      front ++ [.token (.delim '!'), .token (.ident word)] ∧
    Text.equalsIgnoringCase word "important" = true

variable {components value : List Component} {important : Bool}

theorem isWhitespace_of_not {component : Component} (blank : ¬ (!component.isWhitespace) = true) :
    component = .token .whitespace :=
  isWhitespace_iff.mp (by simpa using blank)

theorem filter_spaces {spaces : List Component}
    (blank : ∀ component ∈ spaces, component = .token .whitespace) :
    spaces.filter (fun component => !component.isWhitespace) = [] := by
  rw [List.filter_eq_nil_iff]
  intro component member
  rw [blank component member]
  decide

/-- What ends marked, and not with a space, has a mark at its end. -/
theorem exists_mark_of_endsMarked (ends : components.getLast? ≠ some (.token .whitespace))
    (marked : EndsMarked components) : ∃ mark, Mark mark ∧ mark <:+ components := by
  obtain ⟨front, word, visible, isImportant⟩ := marked
  obtain ⟨before, last, rfl, -, visibleLast⟩ := List.filter_eq_append_iff.mp visible
  obtain ⟨spaces, behind, rfl, -, -, visibleBehind⟩ := List.filter_eq_cons_iff.mp visibleLast
  obtain ⟨between, after, rfl, blankBetween, -, visibleAfter⟩ :=
    List.filter_eq_cons_iff.mp visibleBehind
  have blankAfter : ∀ component ∈ after, component = .token .whitespace := fun component member =>
    isWhitespace_of_not (List.filter_eq_nil_iff.mp visibleAfter component member)
  -- Spaces behind the word would be the last component.
  obtain rfl : after = [] := by
    cases after using List.reverseRec with
    | nil => rfl
    | append_singleton after last _ =>
      refine absurd ?_ ends
      rw [blankAfter last (by simp)]
      simp [List.getLast?_cons]
  refine ⟨.token (.delim '!') :: between ++ [.token (.ident word)],
    .mk (fun component member => isWhitespace_of_not (blankBetween component member)) isImportant,
    before ++ spaces, ?_⟩
  simp

/-- **A value is important just if it ends with a mark of importance.** -/
theorem Annotated.important_iff (annotated : Annotated components value important) :
    important = true ↔ EndsMarked components := by
  cases annotated with
  | @marked _ spaces mark after _ blankSpaces isMark blankAfter =>
    refine iff_of_true rfl ?_
    cases isMark with
    | @mk between word blankBetween isImportant =>
      refine ⟨value.filter (fun component => !component.isWhitespace), word, ?_, isImportant⟩
      simp only [List.filter_append, filter_spaces blankSpaces, filter_spaces blankAfter,
        List.filter_cons, filter_spaces blankBetween]
      simp [Component.isWhitespace]
  | @plain _ after ends unmarked blankAfter =>
    refine iff_of_false Bool.false_ne_true fun marked => ?_
    obtain ⟨front, word, visible, isImportant⟩ := marked
    rw [List.filter_append, filter_spaces blankAfter, List.append_nil] at visible
    obtain ⟨mark, isMark, suffix⟩ :=
      exists_mark_of_endsMarked ends ⟨front, word, visible, isImportant⟩
    exact unmarked mark isMark suffix

/-- **The tokens of a value** are those of what is kept of it, and behind them spaces and the mark
of importance, if there is one. -/
theorem Annotated.tokensAll_eq (annotated : Annotated components value important) :
    ∃ spaces mark, tokensAll components = tokensAll value ++ spaces ++ mark ∧
      (∀ token ∈ spaces, token = .whitespace) ∧
      if important then MarkTokens mark else mark = [] := by
  cases annotated with
  | @marked _ spaces mark after _ blankSpaces isMark blankAfter =>
    cases isMark with
    | @mk between word blankBetween isImportant =>
      refine ⟨tokensAll spaces, _, ?_, mem_tokensAll_spaces blankSpaces,
        .mk (mem_tokensAll_spaces blankBetween) (mem_tokensAll_spaces blankAfter) isImportant⟩
      simp [tokensAll_append, tokensAll, Component.tokens]
  | @plain _ after _ _ blankAfter =>
    refine ⟨tokensAll after, [], ?_, mem_tokensAll_spaces blankAfter, rfl⟩
    rw [tokensAll_append, List.append_nil]

theorem Annotated.getLast?_ne (annotated : Annotated components value important) :
    value.getLast? ≠ some (.token .whitespace) := by
  cases annotated with
  | marked ends => exact ends
  | plain ends => exact ends

/-- **What a declaration takes.** The tokens that are gone when it is read are its name, a colon and
those of its value, with spaces around the colon. The value is kept up to the spaces at its end and
the mark of importance, which is there just if the value as it was read ends marked. What is kept
does not end with a space and holds neither an error nor the end nor a token that opens something,
however deep. Behind it are the end, a semicolon or a closing brace. -/
theorem read_consumes {name : String} {tokens rest : List Token} {declaration : Declaration}
    (accepted : read name tokens = .ok declaration rest) :
    (∃ before after components spaces mark,
      Token.ident name :: tokens =
        .ident declaration.name :: before ++ .colon :: after ++ tokensAll components ++ rest ∧
      tokensAll components = tokensAll declaration.value ++ spaces ++ mark ∧
      (∀ token ∈ before, token = .whitespace) ∧ (∀ token ∈ after, token = .whitespace) ∧
      (∀ token ∈ spaces, token = .whitespace) ∧
      (if declaration.important then MarkTokens mark else mark = []) ∧
      Component.readUntil (fun token => token = .semicolon ∨ token = .rightBrace)
        (tokensAll components ++ rest) = .ok components rest ∧
      (declaration.important = true ↔ EndsMarked components)) ∧
    declaration.value.getLast? ≠ some (.token .whitespace) ∧
    (∀ next ∈ rest.head?, next = .endOfFile ∨ next = .semicolon ∨ next = .rightBrace) ∧
    ∀ token, Holds declaration.value (.token token) →
      token.opening? = none ∧ token ≠ .badString ∧ token ≠ .badUrl ∧ token ≠ .endOfFile := by
  obtain ⟨spelling, rfl, spells, stopped⟩ := read_eq_ok_iff.mp accepted
  generalize whole : Token.ident name :: spelling = consumed at spells
  cases spells with
  | @mk _ before after tokens components value important blankBefore blankAfter spells avoids first
      annotated =>
    obtain ⟨sameName, rfl⟩ := List.cons.inj whole
    obtain rfl := Token.ident.inj sameName
    obtain ⟨spaces, mark, split, blankSpaces, marked⟩ := annotated.tokensAll_eq
    have read : Component.readUntil (fun token => token = .semicolon ∨ token = .rightBrace)
        (tokens ++ rest) = .ok components rest :=
      Component.readUntil_eq_ok_iff.mpr ⟨tokens, rfl, spells, goes_value_iff.mpr avoids, stopped⟩
    refine ⟨⟨before, after, components, spaces, mark, ?_, split, blankBefore, blankAfter,
      blankSpaces, marked, ?_, annotated.important_iff⟩, annotated.getLast?_ne, ?_, ?_⟩
    · rw [spells.eq_tokensAll]
      rfl
    · rwa [← spells.eq_tokensAll]
    · intro next isNext
      simpa using stopped next isNext
    · intro token holds
      exact spells.isPlain_of_holds (holds.mono annotated.isPrefix.subset)

/-- A declaration with a call for its value and a mark in capitals, before another one. -/
theorem read_consumes_call :
    let value : List Component := [.function "f" [.token .comma]]
    let rest : List Token := [.semicolon, .ident "b"]
    read "a" ([.whitespace, .colon, .function "f", .comma, .rightParen, .whitespace, .delim '!',
        .whitespace, .ident "IMPORTANT"] ++ rest) = .ok ⟨"a", value, true⟩ rest ∧
      value.getLast? ≠ some (.token .whitespace) ∧
      ∀ token, Holds value (.token token) → token.opening? = none := by
  intro value rest
  have accepted : read "a" ([.whitespace, .colon, .function "f", .comma, .rightParen, .whitespace,
      .delim '!', .whitespace, .ident "IMPORTANT"] ++ rest) = .ok ⟨"a", value, true⟩ rest := by
    rfl
  obtain ⟨-, ends, -, plain⟩ := read_consumes accepted
  exact ⟨accepted, ends, fun token holds => (plain token holds).1⟩

end Declaration

end PagedHtml.Css
