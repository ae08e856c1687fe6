/-
**Lines may end with a line feed or with a carriage return and a line feed**, and the tokens are the
same, but for the line feeds behind an escape.

A backslash in front of a line feed is a token of its own, and in front of a carriage return it is
an escape. Of the other tokens each is read alike if it makes no difference to it (`Indifferent`).

* `tokenize_crlf_iff`: when the tokens and faults are the same, for every text whose broken strings
  and addresses hold no line feed behind an escape.
-/

import PagedHtml.Proofs.Css.LineTokens

namespace PagedHtml.Css

open Text (isSpace crlf crlf_cons crlf_append any_head?_crlf dropWhile_crlf)
open Scan

namespace Lexer

/-! ### Lone characters -/

/-- The token is neither a space nor a character alone. -/
def IsWorded (token : Token) : Prop := token ≠ .whitespace ∧ ∀ d, token ≠ .delim d

theorem isWorded_of_punctuation {c : Char} {token : Token} (isOne : punctuation? c = some token) :
    IsWorded token := by
  unfold punctuation? at isOne
  split at isOne <;> cases isOne <;> exact ⟨Token.noConfusion, fun d => Token.noConfusion⟩

theorem isWorded_stringToken (quote : Char) (chars : List Char) :
    IsWorded (stringToken quote chars).token := by
  simp only [stringToken]
  split <;> exact ⟨Token.noConfusion, fun d => Token.noConfusion⟩

theorem isWorded_addressToken (chars : List Char) : IsWorded (addressToken chars).token := by
  simp only [addressToken]
  split <;> exact ⟨Token.noConfusion, fun d => Token.noConfusion⟩

theorem isWorded_numericToken (chars : List Char) : IsWorded (numericToken chars).token := by
  rw [numericToken_eq]
  simp only
  split_ifs <;> exact ⟨Token.noConfusion, fun d => Token.noConfusion⟩

theorem isWorded_namedToken (chars : List Char) : IsWorded (namedToken chars).token := by
  rw [namedToken_eq]
  simp only
  split_ifs
  · exact ⟨Token.noConfusion, fun d => Token.noConfusion⟩
  · exact isWorded_addressToken _
  · exact ⟨Token.noConfusion, fun d => Token.noConfusion⟩
  · exact ⟨Token.noConfusion, fun d => Token.noConfusion⟩

/-- A token is a space, a character alone that starts no name, or neither. -/
theorem tokenAt_cases (c : Char) (rest : List Char) :
    isSpace c = true ∨
      ((tokenAt c rest).token = .delim c ∧ (c = '#' ∨ startsName (c :: rest) = false)) ∨
      IsWorded (tokenAt c rest).token := by
  unfold tokenAt
  split
  · next isOne => exact .inr (.inr (isWorded_of_punctuation isOne))
  · split_ifs with space quote hash
    · exact .inl space
    · exact .inr (.inr (isWorded_stringToken c rest))
    · subst hash
      rw [hashToken_eq]
      split_ifs
      · exact .inr (.inr ⟨Token.noConfusion, fun d => Token.noConfusion⟩)
      · exact .inr (.inl ⟨rfl, .inl rfl⟩)
    · exact .inr (.inr (isWorded_numericToken _))
    · exact .inr (.inr ⟨Token.noConfusion, fun d => Token.noConfusion⟩)
    · exact .inr (.inr ⟨Token.noConfusion, fun d => Token.noConfusion⟩)
    · exact .inr (.inr ⟨Token.noConfusion, fun d => Token.noConfusion⟩)
    · exact .inr (.inr (isWorded_namedToken _))
    · next word => exact .inr (.inl ⟨rfl, .inr (Bool.not_eq_true _ ▸ word)⟩)

theorem isSpace_of_tokenAt {c : Char} {rest : List Char}
    (whitespace : (tokenAt c rest).token = .whitespace) : isSpace c = true := by
  rcases tokenAt_cases c rest with space | ⟨delim, -⟩ | worded
  · exact space
  · rw [whitespace] at delim
    cases delim
  · exact absurd whitespace worded.1

/-- A lone backslash stands in front of a line feed. -/
theorem newline_of_tokenAt {c : Char} {rest : List Char}
    (lone : (tokenAt c rest).token = .delim '\\') : ['\\', '\n'] <+: c :: rest := by
  rcases tokenAt_cases c rest with space | ⟨delim, hash | noName⟩ | worded
  · rw [tokenAt_space space] at lone
    cases lone
  · rw [lone, hash] at delim
    cases delim
  · rw [lone] at delim
    obtain rfl : '\\' = c := Token.delim.inj delim
    obtain ⟨more, rfl⟩ := exists_newline_of_not_startsEscape
      (by simpa [startsName] using noName : ¬ startsEscape rest = true)
    exact ⟨more, rfl⟩
  · exact absurd lone (worded.2 '\\')

end Lexer

/-! ### All tokens of a text -/

/-- No backslash stands in front of a line feed behind a carriage return. -/
theorem not_infix_crlf (chars : List Char) : ¬ ['\\', '\n'] <:+: crlf chars := by
  induction chars with
  | nil => simp
  | cons c rest ih =>
    by_cases feed : c = '\n'
    · subst feed
      simpa [List.infix_cons_iff] using ih
    · rw [crlf_cons feed, List.infix_cons_iff, not_or]
      refine ⟨?_, ih⟩
      rintro ⟨more, split⟩
      have first : (crlf rest).head? = some '\n' := by
        rw [← (List.cons.inj split).2]
        rfl
      exact Text.head?_crlf_ne_newline rest first

namespace Divides

variable {chars : List Char} {stretches : List Stretch}

theorem loneBackslash_notMem (divides : Divides chars stretches)
    (free : ¬ ['\\', '\n'] <:+: chars) : .delim '\\' ∉ stretches.filterMap Stretch.token? := by
  induction divides with
  | nil | openComment => exact List.not_mem_nil
  | @comment body rest stretches _ _ ih =>
    refine ih fun inside => free (inside.trans ?_)
    exact ⟨'/' :: '*' :: (body ++ ['*', '/']), [], by simp⟩
  | @token c more rest token fault stretches _ taken _ ih =>
    have notLone : token ≠ .delim '\\' := by
      rintro rfl
      exact free (Lexer.newline_of_tokenAt (congrArg Lexer.Step.token taken)).isInfix
    refine List.not_mem_cons_of_ne_of_not_mem notLone.symm (ih fun inside => free ?_)
    exact inside.trans ⟨c :: more, [], by simp⟩

/-- Where no token is a lone backslash none stands in front of a line feed at the start. -/
theorem boundary (divides : Divides chars stretches)
    (noLone : .delim '\\' ∉ stretches.filterMap Stretch.token?) :
    ¬ ['\\', '\n'] <+: chars ∧ ¬ ['-', '\\', '\n'] <+: chars := by
  have absent : .delim '\\' ∉ (tokenizeChars chars).tokens := by
    rw [divides.tokenizeChars_eq]
    simpa using noLone
  have lone (more : List Char) :
      .delim '\\' ∈ (tokenizeChars ('\\' :: '\n' :: more)).tokens := by
    rw [tokenizeChars_token (by simp) (by rfl : Lexer.tokenAt '\\' ('\n' :: more) =
      ⟨.delim '\\', none, '\n' :: more⟩)]
    exact List.mem_cons_self
  constructor
  · rintro ⟨more, rfl⟩
    exact absent (lone more)
  · rintro ⟨more, rfl⟩
    have hyphen : Lexer.tokenAt '-' ('\\' :: '\n' :: more) =
        ⟨.delim '-', none, '\\' :: '\n' :: more⟩ := rfl
    have noComment : ¬ ['/', '*'] <+: '-' :: '\\' :: '\n' :: more := by simp
    have tokens := tokenizeChars_token noComment hyphen
    exact absent (tokens ▸ List.mem_cons_of_mem _ (lone more))

end Divides

theorem crlf_comment (body rest : List Char) :
    crlf ('/' :: '*' :: (body ++ '*' :: '/' :: rest)) =
      '/' :: '*' :: (crlf body ++ '*' :: '/' :: crlf rest) := by
  simp [crlf_append, crlf_cons]

theorem not_infix_crlf_of_comment {body : List Char} (first : ¬ ['*', '/'] <:+: body) :
    ¬ ['*', '/'] <:+: crlf body := by
  rwa [Text.infix_crlf_iff (by decide) (by decide) (by simp)]

/-- Spaces are one token also where carriage returns stand among them. -/
theorem tokenizeChars_crlf_of_space {c : Char} {chars : List Char} (space : isSpace c = true) :
    tokenizeChars (crlf (c :: chars)) =
      ⟨.whitespace :: (tokenizeChars (crlf (chars.dropWhile isSpace))).tokens,
        (tokenizeChars (crlf (chars.dropWhile isSpace))).faults⟩ := by
  have spaceCrlf : (crlf (c :: chars)).head?.any isSpace = true := by
    rw [any_head?_crlf (by decide)]
    exact space
  rw [tokenizeChars_of_space spaceCrlf, dropWhile_crlf (by decide),
    List.dropWhile_cons_of_pos space]

/-- A text is not read as a space before the same text with carriage returns. -/
theorem Divides.tokens_ne_whitespace_cons {chars : List Char} {stretches : List Stretch}
    (divides : Divides chars stretches) :
    (tokenizeChars chars).tokens ≠ .whitespace :: (tokenizeChars (crlf chars)).tokens := by
  induction divides with
  | nil =>
    rw [tokenizeChars_of_nil skipComments?_nil]
    simp
  | comment first _ ih =>
    rw [crlf_comment, tokenizeChars_comment first,
      tokenizeChars_comment (not_infix_crlf_of_comment first)]
    exact ih
  | openComment never =>
    rw [tokenizeChars_openComment never]
    simp
  | @token c more rest token fault stretches noComment taken _ ih =>
    rw [tokenizeChars_token noComment taken]
    intro same
    obtain ⟨rfl, others⟩ := List.cons.inj same
    have space := Lexer.isSpace_of_tokenAt (congrArg Lexer.Step.token taken)
    rw [Lexer.tokenAt_space space] at taken
    rw [tokenizeChars_crlf_of_space space, (Lexer.Step.mk.inj taken).2.2] at others
    exact ih others

theorem lexed_eq_iff {token : Token} {fault : Option LexFault} {first second : Lexed} :
    (⟨token :: first.tokens, fault.toList ++ first.faults⟩ : Lexed) =
        ⟨token :: second.tokens, fault.toList ++ second.faults⟩ ↔ first = second := by
  cases first
  cases second
  simp

/-- Where spaces start both texts do. -/
theorem indifferent_of_isSpace {chars rest : List Char} {token : Token}
    (blank : ∀ c ∈ chars, isSpace c = true) : Indifferent chars token rest := by
  refine indifferent_of_not_holds ?_
  rintro ⟨front, back, rfl, before, digits, rfl, -⟩
  exact absurd (blank '\\' (by simp)) (by decide)

/-- **What is read from a token on is the same** exactly if the line ends make no difference to the
token, and what is read behind it is the same. -/
theorem Lexer.Reread.lexed_eq_iff {chars rest : List Char} {token : Token}
    {fault : Option LexFault} {others : List Stretch} {other : Lexer.Step}
    (reread : Lexer.Reread chars ⟨token, fault, rest⟩ other) (divides : Divides rest others) :
    (⟨other.token :: (tokenizeChars other.rest).tokens,
        other.fault.toList ++ (tokenizeChars other.rest).faults⟩ : Lexed) =
          ⟨token :: (tokenizeChars rest).tokens, fault.toList ++ (tokenizeChars rest).faults⟩ ↔
      Indifferent chars token rest ∧ tokenizeChars (crlf rest) = tokenizeChars rest := by
  rcases reread with ⟨indifferent, same, sameFault, behind⟩ | ⟨sensitive, visible, rfl⟩ |
    ⟨sensitive, differs⟩
  · rw [same, sameFault, behind, and_iff_right indifferent]
    exact Css.lexed_eq_iff
  · refine iff_of_false (fun equal => ?_) fun both => sensitive both.1
    have behind := congrArg Lexed.tokens (Css.lexed_eq_iff.mp equal)
    have stops : ∀ c ∈ rest.head?, isSpace c = false := fun c first => by
      simpa [Option.mem_def.mp first] using visible
    have stays : (crlf rest).dropWhile isSpace = crlf rest := by
      rw [dropWhile_crlf (by decide), (takeWhile_eq_nil stops).2]
    rw [tokenizeChars_of_space rfl, List.dropWhile_cons_of_pos (by decide), stays] at behind
    exact divides.tokens_ne_whitespace_cons behind.symm
  · exact iff_of_false (fun equal => differs (List.cons.inj (Lexed.mk.inj equal).1).1)
      fun both => sensitive both.1

/-- **The tokens and faults of both texts are the same** exactly if it makes no difference to any
token how the lines end. -/
theorem Divides.tokenizeChars_crlf_iff {chars : List Char} {stretches : List Stretch}
    (divides : Divides chars stretches)
    (noLone : .delim '\\' ∉ stretches.filterMap Stretch.token?)
    (free : ∀ chars token fault, Stretch.token chars token fault ∈ stretches →
      token = .badString ∨ token = .badUrl → ¬ HoldsEscapedBreak chars) :
    tokenizeChars (crlf chars) = tokenizeChars chars ↔ AllIndifferent stretches := by
  induction divides with
  | nil => exact iff_of_true rfl trivial
  | comment first _ ih =>
    rw [crlf_comment, tokenizeChars_comment first,
      tokenizeChars_comment (not_infix_crlf_of_comment first)]
    exact ih noLone fun chars token fault member => free chars token fault (.tail _ member)
  | @openComment body never =>
    have comment : crlf ('/' :: '*' :: body) = '/' :: '*' :: crlf body := by simp [crlf_cons]
    rw [comment, tokenizeChars_openComment never,
      tokenizeChars_openComment (not_infix_crlf_of_comment never)]
    exact iff_of_true rfl trivial
  | @token c more rest token fault others noComment taken dividesOthers ih =>
    obtain ⟨notLone, noLoneOthers⟩ := not_or.mp (mt List.mem_cons.mpr noLone)
    have later := ih noLoneOthers fun chars token fault member =>
      free chars token fault (.tail _ member)
    have all : AllIndifferent (.token (c :: more) token fault :: others) ↔
        Indifferent (c :: more) token rest ∧ AllIndifferent others := by
      rw [AllIndifferent, dividesOthers.flatMap_chars]
    rw [all, ← later, tokenizeChars_token noComment taken]
    by_cases space : isSpace c = true
    · rw [Lexer.tokenAt_space space] at taken
      obtain ⟨rfl, rfl, left⟩ := Lexer.Step.mk.inj taken
      have spaces : (more ++ rest).takeWhile isSpace = more := by
        have split := List.takeWhile_append_dropWhile (p := isSpace) (l := more ++ rest)
        rw [left] at split
        exact List.append_cancel_right split
      have blank : ∀ d ∈ c :: more, isSpace d = true :=
        List.forall_mem_cons.mpr ⟨space, fun d member =>
          List.all_eq_true.mp List.all_takeWhile d (spaces ▸ member)⟩
      rw [tokenizeChars_crlf_of_space space, left, and_iff_right (indifferent_of_isSpace blank)]
      exact @Css.lexed_eq_iff _ none _ _
    · have notFeed : c ≠ '\n' := fun same => space (by rw [same]; decide)
      have textCrlf : crlf (c :: (more ++ rest)) = c :: crlf (more ++ rest) := crlf_cons notFeed _
      have noCommentCrlf : ¬ ['/', '*'] <+: c :: crlf (more ++ rest) := by
        rwa [← textCrlf, Text.prefix_crlf_iff (by decide) (by decide)]
      obtain ⟨boundary, hyphened⟩ := dividesOthers.boundary noLoneOthers
      have reread : Lexer.Reread (c :: more) ⟨token, fault, rest⟩
          (Lexer.tokenAt c (crlf (more ++ rest))) := by
        rw [← taken]
        refine Lexer.reread_tokenAt (Bool.not_eq_true _ ▸ space) ?_ ?_ ?_ ?_ ?_
        · rw [taken]
          rfl
        · rwa [taken]
        · rwa [taken]
        · rw [taken]
          exact Ne.symm notLone
        · rw [taken]
          exact free _ _ _ List.mem_cons_self
      generalize takenCrlf : Lexer.tokenAt c (crlf (more ++ rest)) = other at reread
      rw [textCrlf, tokenizeChars_token noCommentCrlf takenCrlf]
      exact reread.lexed_eq_iff dividesOthers

/-- **The tokens and faults of a text are the same with carriage returns before its line feeds**
exactly if none of the tokens is a lone backslash and it makes no difference to any token how the
lines end. Of the broken strings and addresses no line feed may stand behind an escape. -/
theorem tokenize_crlf_iff {text : String} {stretches : List Stretch}
    (divides : Divides text.toList stretches)
    (free : ∀ chars token fault, Stretch.token chars token fault ∈ stretches →
      token = .badString ∨ token = .badUrl → ¬ HoldsEscapedBreak chars) :
    tokenize (String.ofList (crlf text.toList)) = tokenize text ↔
      .delim '\\' ∉ (tokenize text).tokens ∧ AllIndifferent stretches := by
  have tokens : (tokenize text).tokens = stretches.filterMap Stretch.token? ++ [.endOfFile] :=
    congrArg Lexed.tokens divides.tokenizeChars_eq
  have lone : .delim '\\' ∉ (tokenize text).tokens ↔
      .delim '\\' ∉ stretches.filterMap Stretch.token? := by
    rw [tokens]
    simp
  have same := fun noLone => divides.tokenizeChars_crlf_iff noLone free
  have crlfText :
      tokenize (String.ofList (crlf text.toList)) = tokenizeChars (crlf text.toList) := by
    rw [tokenize, String.toList_ofList]
  rw [crlfText]
  constructor
  · intro equal
    obtain ⟨others, dividesCrlf⟩ := exists_divides (crlf text.toList)
    have absent := dividesCrlf.loneBackslash_notMem (not_infix_crlf text.toList)
    have noLone : .delim '\\' ∉ (tokenize text).tokens := by
      rw [← equal, dividesCrlf.tokenizeChars_eq]
      simpa using absent
    exact ⟨noLone, (same (lone.mp noLone)).mp equal⟩
  · rintro ⟨noLone, all⟩
    exact (same (lone.mp noLone)).mpr all

theorem tokenize_crlf_escaped_name :
    tokenize (String.ofList (crlf "\\61\n c".toList)) = tokenize "\\61\n c" := by
  have word : Divides ('c' :: ([] ++ [])) [.token ['c'] (.ident "c") none] :=
    .token (by decide) (by decide +kernel) .nil
  have space : Divides (' ' :: ([] ++ ['c'])) [.token [' '] .whitespace none, _] :=
    .token (by decide) (by decide +kernel) word
  have divides : Divides ('\\' :: (['6', '1', '\n'] ++ [' ', 'c']))
      [.token ['\\', '6', '1', '\n'] (.ident "a") none, _, _] :=
    .token (by decide) (by decide +kernel) space
  have tokens : tokenize "\\61\n c" = _ := divides.tokenizeChars_eq
  have name : Indifferent (['\\', '6', '1'] ++ ['\n']) (.ident "a") [' ', 'c'] :=
    indifferent_of_end (by decide) (by decide)
  have others : AllIndifferent [.token [' '] .whitespace none, .token ['c'] (.ident "c") none] :=
    ⟨indifferent_of_notMem (by decide), indifferent_of_notMem (by decide), trivial⟩
  refine (@tokenize_crlf_iff "\\61\n c" _ divides ?_).mpr ⟨?_, name, others⟩
  · intro chars token fault member broken
    simp only [List.mem_cons, Stretch.token.injEq, List.not_mem_nil, or_false] at member
    rcases member with ⟨-, rfl, -⟩ | ⟨-, rfl, -⟩ | ⟨-, rfl, -⟩ <;> simp at broken
  · rw [tokens]
    decide

/-- Behind a backslash the string goes on, and is broken where a carriage return stands first. -/
theorem tokenize_crlf_continued :
    tokenize (String.ofList (crlf "\"a\\\nb\"".toList)) ≠ tokenize "\"a\\\nb\"" := by
  have goesOn : Lexer.tokenAt '"' ['a', '\\', '\n', 'b', '"'] = ⟨.string "ab", none, []⟩ := by
    decide +kernel
  have breaks : Lexer.tokenAt '"' ['a', '\\', '\r', '\n', 'b', '"'] =
      ⟨.badString, none, ['\n', 'b', '"']⟩ := by decide +kernel
  have first : tokenize "\"a\\\nb\"" = _ := tokenizeChars_token (by decide) goesOn
  have second : tokenize (String.ofList (crlf "\"a\\\nb\"".toList)) = _ :=
    tokenizeChars_token (by decide) breaks
  intro same
  rw [first, second] at same
  cases same

end PagedHtml.Css
