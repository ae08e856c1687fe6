/-
**A token of a text with carriage returns in front of its line feeds.**

A line feed that belongs to an escape inside a token ends the token where a carriage return stands
in front of it, so the token differs, or a space stands behind it that was none. It makes no
difference only at the end of a name before a space, and at the end of the text of an address
(`Indifferent`).

* `Lexer.reread_tokenAt`: a token is read alike exactly if it makes no difference to it, unless it
  is a broken string or address, or a lone backslash stands there.
-/

import PagedHtml.Proofs.Css.LineQuotations
import PagedHtml.Proofs.Css.Stretches

namespace PagedHtml.Css

open Text (isSpace crlf crlf_cons crlf_append any_head?_crlf dropWhile_crlf EndsInEscape)
open Scan

/-- Some line feed stands behind an escape. -/
def HoldsEscapedBreak (chars : List Char) : Prop :=
  ∃ front back, chars = front ++ '\n' :: back ∧ EndsInEscape front

/-- **How the lines end makes no difference to a token**, by its characters and what follows them: a
line feed behind an escape is its last character before a space, or only the end of an address
stands behind it. -/
def Indifferent (chars : List Char) (token : Token) (rest : List Char) : Prop :=
  ∀ front back, chars = front ++ '\n' :: back → EndsInEscape front →
    (back = [] ∧ rest.head?.any isSpace = true) ∨
      ((∃ address, token = .url address) ∧ ∀ d ∈ back.head?, EndsAddress d)

/-- How the lines end makes no difference to any of the tokens. -/
def AllIndifferent : List Stretch → Prop
  | [] => True
  | .token chars token _ :: others =>
    Indifferent chars token (others.flatMap Stretch.chars) ∧ AllIndifferent others
  | .comment _ :: others | .openComment _ :: others => AllIndifferent others

/-! ### Line feeds behind an escape -/

section

variable {chars front lead taken rest : List Char} {token : Token}

theorem not_holdsEscapedBreak_of_notMem (plain : '\n' ∉ chars) : ¬ HoldsEscapedBreak chars := by
  rintro ⟨front, back, rfl, -⟩
  exact plain (by simp)

theorem indifferent_of_not_holds (free : ¬ HoldsEscapedBreak chars) :
    Indifferent chars token rest :=
  fun front back split escape => absurd ⟨front, back, split, escape⟩ free

theorem indifferent_of_notMem (plain : '\n' ∉ chars) : Indifferent chars token rest :=
  indifferent_of_not_holds (not_holdsEscapedBreak_of_notMem plain)

/-- A line feed behind an escape stands in what follows a part without one. -/
theorem exists_behind (free : ¬ HoldsEscapedBreak lead) {back : List Char}
    (split : lead ++ taken = front ++ '\n' :: back) (escape : EndsInEscape front) :
    ∃ more, front = lead ++ more ∧ taken = more ++ '\n' :: back := by
  rcases List.append_eq_append_iff.mp split with ⟨more, rfl, behind⟩ | ⟨more, rfl, behind⟩
  · exact ⟨more, rfl, behind⟩
  · cases more with
    | nil => exact ⟨[], by simp, by simpa using behind.symm⟩
    | cons c more =>
      obtain ⟨rfl, -⟩ := List.cons.inj behind
      exact absurd ⟨front, more, rfl, escape⟩ free

/-- Neither spaces nor a parenthesis are part of an escape. -/
theorem not_holdsEscapedBreak_spaces (plain : '\n' ∉ lead) {spaces : List Char}
    (blank : ∀ c ∈ spaces, isSpace c = true) :
    ¬ HoldsEscapedBreak (lead ++ '(' :: spaces) := by
  rintro ⟨front, back, split, escape⟩
  obtain ⟨more, rfl, behind⟩ := exists_behind (not_holdsEscapedBreak_of_notMem plain) split escape
  obtain ⟨d, last, visible, notOpening⟩ := escape.getLast?
  rcases more with _ | ⟨c, more⟩
  · exact absurd (List.cons.inj behind).1 (by decide)
  obtain ⟨rfl, rfl⟩ := List.cons.inj behind
  rw [List.getLast?_append_cons, List.getLast?_cons, Option.some.injEq] at last
  cases more using List.reverseRec with
  | nil => exact notOpening last.symm
  | append_singleton more c _ =>
    obtain rfl : c = d := by simpa using last
    exact absurd (blank c (by simp)) (by simp [visible])

/-- A line feed at the end and before a space makes no difference. -/
theorem indifferent_of_end (plain : '\n' ∉ lead) (space : rest.head?.any isSpace = true) :
    Indifferent (lead ++ ['\n']) token rest := by
  intro front back split escape
  obtain ⟨more, rfl, behind⟩ := exists_behind (not_holdsEscapedBreak_of_notMem plain) split escape
  have lengths := congrArg List.length behind
  simp only [List.length_append, List.length_cons, List.length_nil] at lengths
  exact .inl ⟨List.eq_nil_of_length_eq_zero (by omega), space⟩

/-- Where a token that is no address goes on behind a line feed it makes a difference. -/
theorem not_indifferent_of_back {d : Char} {back : List Char}
    (split : chars = front ++ '\n' :: d :: back) (escape : EndsInEscape front)
    (goesOn : ¬ EndsAddress d) : ¬ Indifferent chars token rest := by
  intro indifferent
  rcases indifferent front (d :: back) split escape with ⟨none, -⟩ | ⟨-, ends⟩
  · cases none
  · exact goesOn (ends d rfl)

end

/-! ### Spaces -/

/-- One more space before a space makes no difference. -/
theorem tokenizeChars_cons_space {c : Char} {chars : List Char} (here : isSpace c = true)
    (space : chars.head?.any isSpace = true) :
    tokenizeChars (c :: chars) = tokenizeChars chars := by
  have more : (c :: chars).head?.any isSpace = true := here
  rw [tokenizeChars_of_space more, tokenizeChars_of_space space, List.dropWhile_cons_of_pos here]

/-! ### The token at a character -/

namespace Lexer

/-- How a token of a text is read with carriage returns in front of the line feeds. -/
inductive Reread (chars : List Char) (step other : Step) : Prop
  /-- It is read alike, and so is what follows. -/
  | kept (indifferent : Indifferent chars step.token step.rest) (token : other.token = step.token)
      (fault : other.fault = step.fault)
      (behind : tokenizeChars other.rest = tokenizeChars (crlf step.rest))
  /-- It is read alike, and a line feed is left in front of what is no space. -/
  | parted (sensitive : ¬ Indifferent chars step.token step.rest)
      (visible : step.rest.head?.any isSpace = false)
      (same : other = { step with rest := '\n' :: crlf step.rest })
  /-- Another token is read. -/
  | changed (sensitive : ¬ Indifferent chars step.token step.rest)
      (token : other.token ≠ step.token)

variable {chars lead text : List Char}

theorem eq_append_of_whole {taken rest : List Char} (whole : chars ++ rest = lead ++ text)
    (split : text = taken ++ rest) : chars = lead ++ taken := by
  rw [split, ← List.append_assoc] at whole
  exact List.append_cancel_right whole

/-- A token that holds no line feed, of which both readings leave the same. -/
theorem Reread.of_notMem {step : Step} (plain : '\n' ∉ chars) :
    Reread chars step { step with rest := crlf step.rest } :=
  .kept (indifferent_of_notMem plain) rfl rfl rfl

/-- **A token that is a name and what stands before it** is read alike, or a line feed stands behind
one of the escapes of the name. -/
theorem reread_name (build : List Char → Token)
    (injective : ∀ name other, build name = build other → name = other)
    (notAddress : ∀ name address, build name ≠ .url address) (plain : '\n' ∉ lead)
    (boundary : ¬ ['\\', '\n'] <+: (takeName text).2)
    (whole : chars ++ (takeName text).2 = lead ++ text) :
    Reread chars ⟨build (takeName text).1, none, (takeName text).2⟩
      ⟨build (takeName (crlf text)).1, none, (takeName (crlf text)).2⟩ := by
  rcases nameRead boundary with ⟨taken, split, plainTaken, same⟩ |
    ⟨front, split, plainFront, escape, same⟩ |
    ⟨front, d, back, split, escape, visible, notClosing, other, breaks⟩
  · obtain rfl := eq_append_of_whole whole split
    rw [same]
    exact .of_notMem (by simp [plain, plainTaken])
  · have held : chars = lead ++ front ++ ['\n'] := by
      rw [List.append_assoc]
      exact eq_append_of_whole whole (split.trans (List.append_cons _ _ _))
    rw [same]
    cases space : (takeName text).2.head?.any isSpace with
    | true =>
      refine .kept ?_ rfl rfl (tokenizeChars_cons_space (by decide) ?_)
      · rw [held]
        exact indifferent_of_end (by simp [plain, plainFront]) space
      · rwa [any_head?_crlf (by decide)]
    | false =>
      refine .parted (fun indifferent => ?_) space rfl
      rcases indifferent (lead ++ front) [] held (escape.append lead) with
        ⟨-, spaceBehind⟩ | ⟨⟨address, same⟩, -⟩
      · rw [space] at spaceBehind
        cases spaceBehind
      · exact notAddress _ _ same
  · have goesOn : text = front ++ '\n' :: d :: back ++ (takeName text).2 := by simpa using split
    obtain rfl := eq_append_of_whole whole goesOn
    exact .changed (not_indifferent_of_back (List.append_assoc _ _ _).symm (escape.append lead)
      (not_or.mpr ⟨by simp [visible], notClosing⟩)) fun same => other (injective _ _ same)

theorem rest_stringToken (quote : Char) (text : List Char) :
    (stringToken quote text).rest = (takeString quote text).rest := by
  simp only [stringToken]
  split <;> rfl

theorem stringToken_of_broken {quote : Char} (breaks : (takeString quote text).ending = .broken) :
    stringToken quote text = ⟨.badString, none, (takeString quote text).rest⟩ := by
  simp only [stringToken, breaks]

theorem token_stringToken_of_sound {quote : Char}
    (sound : (takeString quote text).ending ≠ .broken) :
    ∃ content, (stringToken quote text).token = .string content := by
  cases ending : (takeString quote text).ending with
  | closed | cutOff => exact ⟨_, by simp only [stringToken, ending]; rfl⟩
  | broken => exact absurd ending sound

theorem reread_stringToken {quote : Char} (isQuote : IsQuote quote)
    (whole : chars ++ (stringToken quote text).rest = quote :: text)
    (free : (stringToken quote text).token = .badString → ¬ HoldsEscapedBreak chars) :
    Reread chars (stringToken quote text) (stringToken quote (crlf text)) := by
  have rest := rest_stringToken quote text
  rw [rest] at whole
  rcases stringRead isQuote text with ⟨taken, split, plain, sound, same⟩ |
    ⟨more, breaks, left, breaksCrlf, leftCrlf⟩ | ⟨front, back, split, escape, more, breaks⟩
  · obtain rfl : chars = [quote] ++ taken := eq_append_of_whole whole split
    have notFeed : quote ≠ '\n' := (isQuote.ne (by decide)).symm
    have stepCrlf : stringToken quote (crlf text) =
        { stringToken quote text with rest := crlf (stringToken quote text).rest } := by
      simp only [stringToken, same]
      split <;> rfl
    rw [stepCrlf]
    exact .of_notMem (by simpa [notFeed.symm] using plain)
  · rw [stringToken_of_broken breaks] at free ⊢
    rw [stringToken_of_broken breaksCrlf, left, leftCrlf]
    exact .kept (indifferent_of_not_holds (free rfl)) rfl rfl
      (tokenizeChars_cons_space (by decide) (by rfl)).symm
  · have held : chars = [quote] ++ (front ++ '\n' :: back) :=
      eq_append_of_whole whole (by simpa using split)
    have sound : (takeString quote text).ending ≠ .broken := fun breaks => by
      rw [stringToken_of_broken breaks] at free
      exact free rfl ⟨quote :: front, back, held, escape.cons quote⟩
    obtain ⟨content, token⟩ := token_stringToken_of_sound sound
    refine .changed (fun indifferent => ?_) ?_
    · rcases indifferent (quote :: front) back held (escape.cons quote) with
        ⟨rfl, space⟩ | ⟨⟨address, same⟩, -⟩
      · rcases more sound with none | nothing
        · exact none rfl
        · rw [rest, nothing] at space
          cases space
      · rw [token] at same
        cases same
    · rw [stringToken_of_broken breaks, token]
      exact Token.noConfusion

theorem rest_addressToken (text : List Char) :
    (addressToken text).rest = (takeAddress text).rest := by
  simp only [addressToken]
  split <;> rfl

theorem token_addressToken_of_broken (breaks : (takeAddress text).ending = .broken) :
    (addressToken text).token = .badUrl := by
  simp only [addressToken, breaks]

theorem token_addressToken_of_sound (sound : (takeAddress text).ending ≠ .broken) :
    ∃ address, (addressToken text).token = .url address := by
  cases ending : (takeAddress text).ending with
  | closed | cutOff => exact ⟨_, by simp only [addressToken, ending]; rfl⟩
  | broken => exact absurd ending sound

theorem reread_addressToken (lone : ¬ HoldsEscapedBreak lead)
    (whole : chars ++ (addressToken text).rest = lead ++ text)
    (free : (addressToken text).token = .badUrl → ¬ HoldsEscapedBreak chars) :
    Reread chars (addressToken text) (addressToken (crlf text)) := by
  rw [rest_addressToken] at whole
  rcases addressRead text with ⟨taken, split, spaced, same⟩ |
    ⟨front, d, back, split, escape, goesOn, sound, breaks⟩ | ⟨front, back, split, escape, breaks⟩
  · obtain rfl := eq_append_of_whole whole split
    have stepCrlf : addressToken (crlf text) =
        { addressToken text with rest := crlf (addressToken text).rest } := by
      simp only [addressToken, same]
      split <;> rfl
    rw [stepCrlf]
    refine .kept ?_ rfl rfl rfl
    by_cases sound : (takeAddress text).ending = .broken
    · exact indifferent_of_not_holds (free (token_addressToken_of_broken sound))
    · intro front back held escape
      obtain ⟨more, rfl, behind⟩ := exists_behind lone held escape
      exact .inr ⟨token_addressToken_of_sound sound, spaced sound more back behind⟩
  · have held : chars = lead ++ (front ++ '\n' :: d :: back) :=
      eq_append_of_whole whole (by simpa using split)
    obtain ⟨address, token⟩ := token_addressToken_of_sound sound
    refine .changed (not_indifferent_of_back (held.trans (List.append_assoc _ _ _).symm)
      (escape.append lead) goesOn) ?_
    rw [token_addressToken_of_broken breaks, token]
    exact Token.noConfusion
  · have held : chars = lead ++ (front ++ '\n' :: back) :=
      eq_append_of_whole whole (by simpa using split)
    exact absurd ⟨lead ++ front, back, held.trans (List.append_assoc _ _ _).symm,
      escape.append lead⟩ (free (token_addressToken_of_broken breaks))

/-- The text of a number holds no line feed. -/
theorem newline_notMem_text (chars : List Char) :
    '\n' ∉ (Number.Literal.take chars).1.text := by
  have whole := Number.Literal.take_text chars
  have wholeCrlf := Number.Literal.take_text (crlf chars)
  rw [Number.Literal.take_crlf, ← whole, crlf_append, whole] at wholeCrlf
  exact Text.notMem_of_crlf_eq (List.append_cancel_right wholeCrlf).symm

theorem reread_numericToken (whole : chars ++ (numericToken text).rest = text)
    (boundary : ¬ ['\\', '\n'] <+: (numericToken text).rest)
    (hyphened : ¬ ['-', '\\', '\n'] <+: (numericToken text).rest) :
    Reread chars (numericToken text) (numericToken (crlf text)) := by
  have split := Number.Literal.take_text text
  have plain := newline_notMem_text text
  rw [numericToken_eq] at whole boundary hyphened ⊢
  rw [numericToken_eq, Number.Literal.take_crlf]
  generalize Number.Literal.take text = taken at *
  obtain ⟨literal, after⟩ := taken
  simp only at whole split plain boundary hyphened ⊢
  split at whole
  · next unit =>
    rw [if_pos unit] at boundary ⊢
    rw [if_pos (startsName_crlf_of unit)]
    rw [← split] at whole
    refine reread_name (fun name => .dimension _ (String.ofList name)) ?_ ?_ plain boundary whole
    · intro name other same
      exact String.ofList_injective (Token.dimension.inj same).2
    · intro name address same
      cases same
  · next noUnit =>
    rw [if_neg noUnit] at boundary hyphened ⊢
    have percentCrlf : (crlf after).head? = some '%' ↔ after.head? = some '%' :=
      Text.head?_crlf_eq_iff (by decide) (by decide)
    split at whole
    · next percent =>
      obtain ⟨more, rfl⟩ := List.head?_eq_some_iff.mp percent
      have noUnitCrlf : ¬ startsName (crlf ('%' :: more)) = true := by
        rwa [startsName_crlf (by simp) (by simp)]
      rw [if_pos percent, if_neg noUnitCrlf, if_pos (percentCrlf.mpr percent)]
      rw [← split] at whole
      obtain rfl : chars = literal.text ++ ['%'] := eq_append_of_whole whole rfl
      exact .of_notMem (by simpa using plain)
    · next noPercent =>
      rw [if_neg noPercent] at boundary hyphened ⊢
      have noUnitCrlf : ¬ startsName (crlf after) = true := by
        rwa [startsName_crlf boundary hyphened]
      rw [if_neg noUnitCrlf, if_neg (mt percentCrlf.mp noPercent)]
      rw [← split] at whole
      obtain rfl := List.append_cancel_right whole
      exact .of_notMem plain

theorem namedToken_of_closed (closed : (takeName text).2.head? ≠ some '(') :
    namedToken text = ⟨.ident (String.ofList (takeName text).1), none, (takeName text).2⟩ := by
  rw [namedToken_eq]
  exact if_neg closed

/-- The token of a name before a parenthesis, of which both are already taken. -/
def openedToken (name rest : List Char) : Step :=
  if Text.equalsIgnoringCase (String.ofList name) "url" then
    let argument := rest.dropWhile isSpace
    if argument.head? = some '"' ∨ argument.head? = some '\'' then
      ⟨.function (String.ofList name), none, argument⟩
    else addressToken argument
  else ⟨.function (String.ofList name), none, rest⟩

theorem namedToken_of_opens {name rest : List Char} (opens : takeName text = (name, '(' :: rest)) :
    namedToken text = openedToken name rest := by
  rw [namedToken, opens]
  rfl

theorem openedToken_ne_ident (name rest : List Char) (other : String) :
    (openedToken name rest).token ≠ .ident other := by
  unfold openedToken
  split_ifs
  · dsimp only
    split_ifs
    · exact Token.noConfusion
    · simp only [addressToken]
      split <;> exact Token.noConfusion
  · exact Token.noConfusion

theorem openedToken_suffix (name rest : List Char) : (openedToken name rest).rest <:+ rest := by
  have argument := List.dropWhile_suffix isSpace (l := rest)
  unfold openedToken
  split_ifs
  · dsimp only
    split_ifs
    · exact argument
    · exact (addressToken_suffix _).trans argument
  · exact List.suffix_rfl

theorem exists_back {front tail rest : List Char} {d : Char} (whole : chars ++ rest = text)
    (split : text = front ++ '\n' :: d :: tail) (suffix : rest <:+ tail) :
    ∃ back, chars = front ++ '\n' :: d :: back := by
  obtain ⟨back, rfl⟩ := suffix
  have held : chars ++ rest = (front ++ '\n' :: d :: back) ++ rest := by
    rw [whole, split]
    simp
  exact ⟨back, List.append_cancel_right held⟩

/-- **A function or an address**, of which the name and the parenthesis are already taken. -/
theorem reread_openedToken {name rest : List Char} (plain : '\n' ∉ lead)
    (whole : chars ++ (openedToken name rest).rest = lead ++ '(' :: rest)
    (free : (openedToken name rest).token = .badUrl → ¬ HoldsEscapedBreak chars) :
    Reread chars (openedToken name rest) (openedToken name (crlf rest)) := by
  have quote {c : Char} (notReturn : c ≠ '\r') (notFeed : c ≠ '\n') :
      (crlf (rest.dropWhile isSpace)).head? = some c ↔ (rest.dropWhile isSpace).head? = some c :=
    Text.head?_crlf_eq_iff notReturn notFeed
  have blank : ∀ c ∈ rest.takeWhile isSpace, isSpace c = true := fun c member =>
    List.all_eq_true.mp List.all_takeWhile c member
  have lone := not_holdsEscapedBreak_spaces plain blank
  have split : lead ++ '(' :: rest =
      (lead ++ '(' :: rest.takeWhile isSpace) ++ rest.dropWhile isSpace := by
    rw [List.append_assoc, List.cons_append, List.takeWhile_append_dropWhile]
  unfold openedToken at whole free ⊢
  simp only [dropWhile_crlf (p := isSpace) (by decide), quote (by decide : '"' ≠ '\r') (by decide),
    quote (by decide : '\'' ≠ '\r') (by decide)]
  by_cases url : Text.equalsIgnoringCase (String.ofList name) "url" = true
  · simp only [if_pos url] at whole free ⊢
    split at whole
    · next quoted =>
      rw [if_pos quoted, if_pos quoted]
      have held := List.append_cancel_right (whole.trans split)
      exact .kept (indifferent_of_not_holds (held ▸ lone)) rfl rfl rfl
    · next unquoted =>
      rw [if_neg unquoted] at free ⊢
      rw [if_neg unquoted]
      exact reread_addressToken lone (whole.trans split) free
  · simp only [if_neg url] at whole ⊢
    have held : chars = lead ++ ['('] :=
      List.append_cancel_right (whole.trans (List.append_cons _ _ _))
    rw [held]
    exact .of_notMem (by simpa using plain)

/-- A name before a parenthesis that is cut at a line feed is an identifier in the other text. -/
theorem reread_namedToken_of_opens {name rest : List Char}
    (opens : takeName text = (name, '(' :: rest)) (whole : chars ++ (namedToken text).rest = text)
    (free : (namedToken text).token = .badUrl → ¬ HoldsEscapedBreak chars) :
    Reread chars (namedToken text) (namedToken (crlf text)) := by
  have behind : (takeName text).2 = '(' :: rest := congrArg Prod.snd opens
  have reads : NameRead text := nameRead (by rw [behind]; simp)
  rw [namedToken_of_opens opens] at whole free ⊢
  have cutOff {front tail : List Char} {d : Char} (split : text = front ++ '\n' :: d :: tail)
      (behindTail : rest <:+ tail) (escape : EndsInEscape front) (goesOn : ¬ EndsAddress d)
      (breaks : (takeName (crlf text)).2.head? = some '\n') :
      Reread chars (openedToken name rest) (namedToken (crlf text)) := by
    obtain ⟨back, held⟩ := exists_back whole split ((openedToken_suffix name rest).trans behindTail)
    refine .changed (not_indifferent_of_back held escape goesOn) ?_
    rw [namedToken_of_closed (by rw [breaks]; decide)]
    exact (openedToken_ne_ident name rest _).symm
  rcases reads with ⟨taken, split, plain, same⟩ | ⟨front, split, plain, escape, same⟩ |
    ⟨front, d, back, split, escape, visible, notClosing, other, breaks⟩
  · rw [behind] at split
    rw [opens, crlf_cons (by decide)] at same
    rw [namedToken_of_opens same]
    exact reread_openedToken plain (whole.trans split) free
  · rw [behind] at split
    refine cutOff split List.suffix_rfl escape (not_or.mpr ⟨by decide, by decide⟩) ?_
    rw [same]
    rfl
  · rw [behind] at split
    exact cutOff split ⟨back ++ ['('], by simp⟩ escape (not_or.mpr ⟨by simp [visible], notClosing⟩)
      breaks

theorem reread_namedToken (whole : chars ++ (namedToken text).rest = text)
    (boundary : ¬ ['\\', '\n'] <+: (namedToken text).rest)
    (free : (namedToken text).token = .badUrl → ¬ HoldsEscapedBreak chars) :
    Reread chars (namedToken text) (namedToken (crlf text)) := by
  by_cases opens : (takeName text).2.head? = some '('
  · obtain ⟨rest, behind⟩ := List.head?_eq_some_iff.mp opens
    exact reread_namedToken_of_opens (Prod.ext rfl behind) whole free
  · rw [namedToken_of_closed opens] at whole boundary ⊢
    have closedCrlf : (takeName (crlf text)).2.head? ≠ some '(' := by
      rcases nameRead boundary with ⟨-, -, -, same⟩ | ⟨-, -, -, -, same⟩ |
        ⟨-, -, -, -, -, -, -, -, breaks⟩
      · rwa [same, ne_eq, Text.head?_crlf_eq_iff (by decide) (by decide)]
      · rw [same]
        exact (by decide : some '\n' ≠ some '(')
      · rw [breaks]
        decide
    have wholeName : chars ++ (takeName text).2 = [] ++ text := whole
    rw [namedToken_of_closed closedCrlf]
    refine reread_name (fun name => .ident (String.ofList name)) ?_ ?_ List.not_mem_nil boundary
      wholeName
    · exact fun name other same => String.ofList_injective (Token.ident.inj same)
    · exact fun name address same => Token.noConfusion same

/-- What makes a number sign the start of a hash. -/
def startsHash (chars : List Char) : Bool :=
  chars.head?.any isNameChar || (chars.head? == some '\\' && startsEscape (chars.drop 1))

theorem startsHash_crlf (boundary : ¬ ['\\', '\n'] <+: text) :
    startsHash (crlf text) = startsHash text := by
  rcases text with _ | ⟨c, rest⟩
  · rfl
  by_cases feed : c = '\n'
  · subst feed
    rfl
  rw [crlf_cons feed]
  by_cases escape : c = '\\'
  · subst escape
    simp only [startsHash, List.drop_succ_cons, List.drop_zero, startsEscape_crlf,
      startsEscape_of_boundary boundary]
    rfl
  · have other : (c == '\\') = false := beq_eq_false_iff_ne.mpr escape
    simp [startsHash, other]

theorem startsHash_crlf_of (starts : startsHash text = true) : startsHash (crlf text) = true := by
  rw [startsHash_crlf, starts]
  rintro ⟨rest, rfl⟩
  cases starts

theorem hashToken_eq (chars : List Char) :
    hashToken chars =
      if startsHash chars = true then
        ⟨.hash (String.ofList (takeName chars).1), none, (takeName chars).2⟩
      else ⟨.delim '#', none, chars⟩ :=
  rfl

theorem reread_hashToken (whole : chars ++ (hashToken text).rest = '#' :: text)
    (boundary : ¬ ['\\', '\n'] <+: (hashToken text).rest) :
    Reread chars (hashToken text) (hashToken (crlf text)) := by
  rw [hashToken_eq] at whole boundary ⊢
  rw [hashToken_eq]
  by_cases named : startsHash text = true
  · rw [if_pos named] at whole boundary ⊢
    rw [if_pos (startsHash_crlf_of named)]
    have wholeHash : chars ++ (takeName text).2 = ['#'] ++ text := whole
    refine reread_name (fun name => .hash (String.ofList name)) ?_ ?_ (by decide) boundary wholeHash
    · exact fun name other same => String.ofList_injective (Token.hash.inj same)
    · exact fun name address same => Token.noConfusion same
  · rw [if_neg named] at whole boundary ⊢
    rw [if_neg (by rwa [startsHash_crlf boundary])]
    obtain rfl : chars = ['#'] := List.append_cancel_right whole
    exact .of_notMem (by decide)

/-- A token that a fixed text behind its first character makes. -/
theorem reread_mark {c : Char} {further : List Char} {token : Token} (mark : List Char)
    (notFeed : c ≠ '\n') (plain : '\n' ∉ mark) (starts : mark <+: further)
    (whole : chars ++ further.drop mark.length = c :: further) :
    Reread chars ⟨token, none, further.drop mark.length⟩
      ⟨token, none, (crlf further).drop mark.length⟩ := by
  rw [Text.drop_crlf starts plain]
  obtain ⟨rest, rfl⟩ := starts
  rw [List.drop_left] at whole ⊢
  obtain rfl : chars = c :: mark := List.append_cancel_right whole
  exact .of_notMem (by simpa [notFeed.symm] using plain)

/-- **A token is read alike, or a line feed behind an escape makes a difference**, if a lone
backslash is neither the token nor behind it. -/
theorem reread_tokenAt {c : Char} {further : List Char} (visible : isSpace c = false)
    (whole : chars ++ (tokenAt c further).rest = c :: further)
    (boundary : ¬ ['\\', '\n'] <+: (tokenAt c further).rest)
    (hyphened : ¬ ['-', '\\', '\n'] <+: (tokenAt c further).rest)
    (notLone : (tokenAt c further).token ≠ .delim '\\')
    (free : (tokenAt c further).token = .badString ∨ (tokenAt c further).token = .badUrl →
      ¬ HoldsEscapedBreak chars) :
    Reread chars (tokenAt c further) (tokenAt c (crlf further)) := by
  have notFeed : c ≠ '\n' := fun same => absurd visible (by rw [same]; decide)
  have textCrlf : crlf (c :: further) = c :: crlf further := crlf_cons notFeed further
  cases punctuation : punctuation? c with
  | some token =>
    simp only [tokenAt, punctuation] at whole ⊢
    obtain rfl : chars = [c] := List.append_cancel_right whole
    exact .of_notMem (by simpa using notFeed.symm)
  | none =>
    have unspaced : ¬ isSpace c = true := by simp [visible]
    simp only [tokenAt, punctuation, if_neg unspaced] at whole boundary hyphened notLone free ⊢
    by_cases quote : c = '"' ∨ c = '\''
    · simp only [if_pos quote] at whole free ⊢
      exact reread_stringToken quote whole fun broken => free (.inl broken)
    simp only [if_neg quote] at whole boundary hyphened notLone free ⊢
    by_cases hash : c = '#'
    · simp only [if_pos hash] at whole boundary ⊢
      subst hash
      exact reread_hashToken whole boundary
    simp only [if_neg hash] at whole boundary hyphened notLone free ⊢
    have number : startsNumber (c :: crlf further) = startsNumber (c :: further) :=
      textCrlf ▸ startsNumber_crlf (c :: further)
    rw [number]
    by_cases digits : startsNumber (c :: further) = true
    · simp only [if_pos digits] at whole boundary hyphened ⊢
      rw [← textCrlf]
      exact reread_numericToken whole boundary hyphened
    simp only [if_neg digits] at whole boundary hyphened notLone free ⊢
    have close : c = '-' ∧ (crlf further).take 2 = ['-', '>'] ↔
        c = '-' ∧ further.take 2 = ['-', '>'] :=
      and_congr_right' (Text.take_crlf_eq_iff ['-', '>'] (by decide) (by decide))
    rw [if_congr close rfl rfl]
    by_cases closes : c = '-' ∧ further.take 2 = ['-', '>']
    · simp only [if_pos closes] at whole ⊢
      exact reread_mark ['-', '>'] notFeed (by decide)
        ( List.prefix_iff_eq_take.mpr closes.2.symm) whole
    simp only [if_neg closes] at whole boundary hyphened notLone free ⊢
    have opening : c = '<' ∧ (crlf further).take 3 = ['!', '-', '-'] ↔
        c = '<' ∧ further.take 3 = ['!', '-', '-'] :=
      and_congr_right' (Text.take_crlf_eq_iff ['!', '-', '-'] (by decide) (by decide))
    rw [if_congr opening rfl rfl]
    by_cases opens : c = '<' ∧ further.take 3 = ['!', '-', '-']
    · simp only [if_pos opens] at whole ⊢
      exact reread_mark ['!', '-', '-'] notFeed (by decide)
        ( List.prefix_iff_eq_take.mpr opens.2.symm) whole
    simp only [if_neg opens] at whole boundary hyphened notLone free ⊢
    by_cases keyword : c = '@' ∧ startsName further = true
    · simp only [if_pos keyword] at whole boundary ⊢
      rw [if_pos ⟨keyword.1, startsName_crlf_of keyword.2⟩]
      have wholeKeyword : chars ++ (takeName further).2 = ['@'] ++ further := keyword.1 ▸ whole
      refine reread_name (fun name => .atKeyword (String.ofList name)) ?_ ?_ (by decide) boundary
        wholeKeyword
      · exact fun name other same => String.ofList_injective (Token.atKeyword.inj same)
      · exact fun name address same => Token.noConfusion same
    simp only [if_neg keyword] at whole boundary hyphened notLone free ⊢
    by_cases word : startsName (c :: further) = true
    · have keywordCrlf : ¬ (c = '@' ∧ startsName (crlf further) = true) := by
        rintro ⟨rfl, -⟩
        cases word
      simp only [if_pos word] at whole boundary free ⊢
      rw [if_neg keywordCrlf, if_pos (textCrlf ▸ startsName_crlf_of word), ← textCrlf]
      exact reread_namedToken whole boundary fun broken => free (.inr broken)
    · simp only [if_neg word] at whole boundary hyphened notLone ⊢
      have keywordCrlf : ¬ (c = '@' ∧ startsName (crlf further) = true) := by
        rwa [startsName_crlf boundary hyphened]
      have wordCrlf : ¬ startsName (c :: crlf further) = true := by
        rw [← textCrlf, startsName_crlf]
        · exact word
        · rintro ⟨rest, split⟩
          exact notLone (congrArg Token.delim (List.cons.inj split).1.symm)
        · rintro ⟨rest, split⟩
          exact boundary ⟨rest, (List.cons.inj split).2⟩
      rw [if_neg keywordCrlf, if_neg wordCrlf]
      obtain rfl : chars = [c] := List.append_cancel_right whole
      exact .of_notMem (by simpa using notFeed.symm)

end Lexer

end PagedHtml.Css
