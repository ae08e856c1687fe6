/-
**The tokens and comments of a text cover it, one behind the other.**

A text divides into stretches (`Divides`): comments, and the characters of one token each. Every
stretch takes a character at least, and together they are the text. The division is unique, the
tokens of the text are those of its stretches in order, and what is read behind a stretch does not
depend on what stands before it.

* `afterComment?_eq_some_iff`, `afterComment?_eq_none_iff`: where a comment ends;
* `Divides.tokenizeChars_eq`, `Divides.behind`: the tokens and the faults of a divided text, and the
  division of what stands behind some of its stretches;
* `exists_divides`, `Divides.unique`: every text divides, and in one way only;
* `tokenize_stretches`: all of this for the text of a style sheet.
-/

import PagedHtml.Proofs.Css.Lexing

namespace PagedHtml.Css

/-- A part of a style sheet that its reader takes at once. -/
inductive Stretch where
  /-- A comment, by what stands between its marks. -/
  | comment (body : List Char)
  /-- A comment that the end of the text cuts off. -/
  | openComment (body : List Char)
  /-- The characters of a token, and what the end of the text cuts off of it. -/
  | token (chars : List Char) (token : Token) (fault : Option LexFault)

namespace Stretch

/-- The text of the stretch. -/
def chars : Stretch → List Char
  | .comment body => '/' :: '*' :: (body ++ ['*', '/'])
  | .openComment body => '/' :: '*' :: body
  | .token chars _ _ => chars

/-- The token that the stretch is read as, unless it is a comment. -/
def token? : Stretch → Option Token
  | .comment _ | .openComment _ => none
  | .token _ value _ => some value

/-- The fault that the stretch is recorded with. -/
def fault? : Stretch → Option LexFault
  | .comment _ => none
  | .openComment _ => some .unterminatedComment
  | .token _ _ fault => fault

end Stretch

/-- **How a text divides into stretches**: a comment goes to its first closing mark, or to the end
of a text without one, and where no comment starts the lexer tells the characters of the token. -/
inductive Divides : List Char → List Stretch → Prop
  | nil : Divides [] []
  | comment {body rest : List Char} {stretches : List Stretch}
      (first : ¬ ['*', '/'] <:+: body) (others : Divides rest stretches) :
      Divides ('/' :: '*' :: (body ++ '*' :: '/' :: rest)) (.comment body :: stretches)
  | openComment {body : List Char} (never : ¬ ['*', '/'] <:+: body) :
      Divides ('/' :: '*' :: body) [.openComment body]
  | token {c : Char} {more rest : List Char} {token : Token} {fault : Option LexFault}
      {stretches : List Stretch} (noComment : ¬ ['/', '*'] <+: c :: (more ++ rest))
      (taken : Lexer.tokenAt c (more ++ rest) = ⟨token, fault, rest⟩)
      (others : Divides rest stretches) :
      Divides (c :: (more ++ rest)) (.token (c :: more) token fault :: stretches)

/-! ### Comments -/

namespace Scan

/-- No comment ends in a text without its closing mark, and only there. -/
theorem afterComment?_eq_none_iff {chars : List Char} :
    afterComment? chars = none ↔ ¬ ['*', '/'] <:+: chars := by
  fun_induction afterComment? chars with
  | case1 => simp
  | case2 rest =>
    have here : ['*', '/'] <:+: '*' :: '/' :: rest := ⟨[], rest, rfl⟩
    simp [here]
  | case3 c rest other ih =>
    have notHere : ¬ ['*', '/'] <+: c :: rest := by
      rintro ⟨more, split⟩
      obtain ⟨rfl, rfl⟩ := List.cons.inj split
      exact other more rfl rfl
    rw [ih, List.infix_cons_iff, or_iff_right notHere]

/-- A comment ends at its first closing mark. -/
theorem afterComment?_eq_some_iff {chars rest : List Char} :
    afterComment? chars = some rest ↔
      ∃ body, ¬ ['*', '/'] <:+: body ∧ chars = body ++ '*' :: '/' :: rest := by
  fun_induction afterComment? chars with
  | case1 => simp
  | case2 after =>
    constructor
    · intro found
      obtain rfl := Option.some.inj found
      exact ⟨[], by simp, rfl⟩
    · rintro ⟨body, first, split⟩
      rcases body with _ | ⟨c, _ | ⟨d, body⟩⟩
      · obtain rfl : after = rest := by simpa using split
        rfl
      · exact absurd split (by simp)
      · obtain ⟨rfl, rfl, -⟩ : '*' = c ∧ '/' = d ∧ _ := by simpa using split
        exact absurd ⟨[], body, rfl⟩ first
  | case3 c after other ih =>
    rw [ih]
    constructor
    · rintro ⟨body, first, rfl⟩
      have notHere : ¬ ['*', '/'] <+: c :: body := by
        rintro ⟨more, split⟩
        obtain ⟨rfl, rfl⟩ := List.cons.inj split
        exact other _ rfl rfl
      refine ⟨c :: body, ?_, rfl⟩
      rw [List.infix_cons_iff, or_iff_right notHere]
      exact first
    · rintro ⟨body, first, split⟩
      rcases body with _ | ⟨d, body⟩
      · obtain ⟨rfl, rfl⟩ := List.cons.inj split
        exact absurd rfl (other rest rfl)
      · obtain ⟨rfl, rfl⟩ := List.cons.inj split
        exact ⟨body, fun inside => first (inside.trans (List.suffix_cons c body).isInfix), rfl⟩

theorem skipComments?_comment {chars rest : List Char} (found : afterComment? chars = some rest) :
    skipComments? ('/' :: '*' :: chars) = skipComments? rest := by
  rw [skipComments?]
  split
  · next nothing =>
    rw [found] at nothing
    cases nothing
  · next after same =>
    rw [found] at same
    obtain rfl := Option.some.inj same
    rfl

theorem skipComments?_openComment {chars : List Char} (never : afterComment? chars = none) :
    skipComments? ('/' :: '*' :: chars) = none := by
  rw [skipComments?]
  split
  · rfl
  · next after same =>
    rw [never] at same
    cases same

end Scan

/-- The tokens of a text are those behind its comments. -/
theorem tokenizeChars_congr {chars others : List Char}
    (same : Scan.skipComments? chars = Scan.skipComments? others) :
    tokenizeChars chars = tokenizeChars others := by
  rcases skipped : Scan.skipComments? others with _ | _ | ⟨c, rest⟩
  · rw [tokenizeChars_of_none skipped, tokenizeChars_of_none (same.trans skipped)]
  · rw [tokenizeChars_of_nil skipped, tokenizeChars_of_nil (same.trans skipped)]
  · rw [tokenizeChars_of_cons skipped, tokenizeChars_of_cons (same.trans skipped)]

/-- A comment is read as nothing. -/
theorem tokenizeChars_comment {body : List Char} (first : ¬ ['*', '/'] <:+: body)
    (rest : List Char) :
    tokenizeChars ('/' :: '*' :: (body ++ '*' :: '/' :: rest)) = tokenizeChars rest :=
  tokenizeChars_congr
    (Scan.skipComments?_comment (Scan.afterComment?_eq_some_iff.mpr ⟨body, first, rfl⟩))

theorem tokenizeChars_openComment {body : List Char} (never : ¬ ['*', '/'] <:+: body) :
    tokenizeChars ('/' :: '*' :: body) = ⟨[.endOfFile], [.unterminatedComment]⟩ :=
  tokenizeChars_of_none (Scan.skipComments?_openComment (Scan.afterComment?_eq_none_iff.mpr never))

/-- A token is read before the tokens of the text behind it. -/
theorem tokenizeChars_token {c : Char} {more rest : List Char} {token : Token}
    {fault : Option LexFault} (noComment : ¬ ['/', '*'] <+: c :: more)
    (taken : Lexer.tokenAt c more = ⟨token, fault, rest⟩) :
    tokenizeChars (c :: more) =
      ⟨token :: (tokenizeChars rest).tokens, fault.toList ++ (tokenizeChars rest).faults⟩ := by
  rw [tokenizeChars_of_cons (skipComments?_of_noComment noComment), taken]

theorem Stretch.chars_comment_append (body rest : List Char) :
    (Stretch.comment body).chars ++ rest = '/' :: '*' :: (body ++ '*' :: '/' :: rest) := by
  simp [Stretch.chars]

/-! ### The tokens of a divided text -/

namespace Divides

variable {chars : List Char} {stretches : List Stretch}

/-- **The tokens of a text are those of its stretches, and the end**; so are the faults. -/
theorem tokenizeChars_eq (divides : Divides chars stretches) :
    tokenizeChars chars =
      ⟨stretches.filterMap Stretch.token? ++ [.endOfFile], stretches.filterMap Stretch.fault?⟩ := by
  induction divides with
  | nil => exact tokenizeChars_of_nil skipComments?_nil
  | comment first _ ih => exact (tokenizeChars_comment first _).trans ih
  | openComment never => exact tokenizeChars_openComment never
  | @token c more rest token fault stretches noComment taken _ ih =>
    rw [tokenizeChars_token noComment taken, ih]
    cases fault <;> rfl

/-- What stands behind a comment divides into the other stretches. -/
theorem of_cons_comment {body rest : List Char} {others : List Stretch}
    (divides : Divides ((Stretch.comment body).chars ++ rest) (.comment body :: others)) :
    ¬ ['*', '/'] <:+: body ∧ Divides rest others := by
  generalize text : (Stretch.comment body).chars ++ rest = chars at divides
  cases divides with
  | @comment _ behind _ first dividesBehind =>
    obtain rfl : rest = behind := by simpa [Stretch.chars] using text
    exact ⟨first, dividesBehind⟩

/-- What stands behind a token divides into the other stretches. -/
theorem of_cons_token {chars rest : List Char} {token : Token} {fault : Option LexFault}
    {others : List Stretch}
    (divides : Divides (chars ++ rest) (.token chars token fault :: others)) :
    ∃ c more, chars = c :: more ∧ ¬ ['/', '*'] <+: c :: (more ++ rest) ∧
      Lexer.tokenAt c (more ++ rest) = ⟨token, fault, rest⟩ ∧ Divides rest others := by
  generalize text : chars ++ rest = whole at divides
  cases divides with
  | @token c more behind _ _ _ noComment taken dividesBehind =>
    obtain rfl : rest = behind := by simpa using text
    exact ⟨c, more, rfl, noComment, taken, dividesBehind⟩

/-- Every stretch takes a character. -/
theorem chars_ne_nil (divides : Divides chars stretches) :
    ∀ stretch ∈ stretches, stretch.chars ≠ [] := by
  induction divides with
  | nil => exact fun _ member => absurd member List.not_mem_nil
  | comment _ _ ih | token _ _ _ ih => exact List.forall_mem_cons.mpr ⟨List.cons_ne_nil _ _, ih⟩
  | openComment => exact List.forall_mem_singleton.mpr (List.cons_ne_nil _ _)

/-- No stretch is read as the end. -/
theorem endOfFile_notMem (divides : Divides chars stretches) :
    .endOfFile ∉ stretches.filterMap Stretch.token? := by
  induction divides with
  | nil | openComment => exact List.not_mem_nil
  | comment _ _ ih => exact ih
  | @token c more rest token fault stretches _ taken _ ih =>
    have notEnd := Lexer.tokenAt_ne_endOfFile c (more ++ rest)
    rw [taken] at notEnd
    exact List.not_mem_cons_of_ne_of_not_mem notEnd.symm ih

/-- **What stands behind some stretches divides into the others.** -/
theorem behind {before after : List Stretch} (divides : Divides chars (before ++ after)) :
    ∃ rest, chars = before.flatMap Stretch.chars ++ rest ∧ Divides rest after := by
  induction before generalizing chars with
  | nil => exact ⟨chars, rfl, divides⟩
  | cons stretch before ih =>
    have step : ∃ others, chars = stretch.chars ++ others ∧ Divides others (before ++ after) := by
      rw [List.cons_append] at divides
      generalize before ++ after = stretches at divides
      cases divides with
      | @comment body rest _ _ others => exact ⟨rest, by simp [Stretch.chars], others⟩
      | openComment => exact ⟨[], by simp [Stretch.chars], .nil⟩
      | @token c more rest _ _ _ _ _ others => exact ⟨rest, rfl, others⟩
    obtain ⟨others, rfl, dividesOthers⟩ := step
    obtain ⟨rest, rfl, dividesRest⟩ := ih dividesOthers
    exact ⟨rest, by rw [List.flatMap_cons, List.append_assoc], dividesRest⟩

/-- **The stretches follow each other without gap or overlap**, from the start to the end. -/
theorem flatMap_chars (divides : Divides chars stretches) :
    stretches.flatMap Stretch.chars = chars := by
  rw [← List.append_nil stretches] at divides
  obtain ⟨rest, rfl, nothing⟩ := divides.behind
  cases nothing
  rw [List.append_nil]

/-- There are no more tokens than characters. -/
theorem length_tokens_le (divides : Divides chars stretches) :
    (stretches.filterMap Stretch.token?).length ≤ chars.length := by
  induction divides with
  | nil | openComment => exact Nat.zero_le _
  | @comment body rest stretches _ _ ih =>
    show (stretches.filterMap Stretch.token?).length ≤ _
    simp only [List.length_cons, List.length_append]
    omega
  | @token c more rest token fault stretches _ _ _ ih =>
    show (stretches.filterMap Stretch.token?).length + 1 ≤ _
    simp only [List.length_cons, List.length_append]
    omega

end Divides

/-! ### Every text divides, and in one way -/

/-- **Every text divides into stretches.** -/
theorem exists_divides (chars : List Char) : ∃ stretches, Divides chars stretches := by
  induction length : chars.length using Nat.strongRecOn generalizing chars with
  | ind _ ih =>
    subst length
    by_cases comment : ['/', '*'] <+: chars
    · obtain ⟨inside, rfl⟩ := comment
      rcases found : Scan.afterComment? inside with _ | rest
      · exact ⟨_, .openComment (Scan.afterComment?_eq_none_iff.mp found)⟩
      · obtain ⟨body, first, rfl⟩ := Scan.afterComment?_eq_some_iff.mp found
        have shorter : rest.length < ('/' :: '*' :: (body ++ '*' :: '/' :: rest)).length := by
          simp only [List.length_cons, List.length_append]
          omega
        obtain ⟨stretches, others⟩ := ih rest.length shorter rest rfl
        exact ⟨_, .comment first others⟩
    · rcases chars with _ | ⟨c, further⟩
      · exact ⟨_, .nil⟩
      · -- What the token leaves is the end of what follows its first character.
        obtain ⟨more, split⟩ := Lexer.tokenAt_suffix c further
        generalize taken : Lexer.tokenAt c further = step at split
        obtain ⟨token, fault, rest⟩ := step
        obtain rfl : more ++ rest = further := split
        have shorter : rest.length < (c :: (more ++ rest)).length := by
          simp only [List.length_cons, List.length_append]
          omega
        obtain ⟨stretches, others⟩ := ih rest.length shorter rest rfl
        exact ⟨_, .token comment taken others⟩

namespace Divides

variable {rest : List Char} {stretches : List Stretch}

theorem of_comment {body : List Char} (first : ¬ ['*', '/'] <:+: body)
    (divides : Divides ('/' :: '*' :: (body ++ '*' :: '/' :: rest)) stretches) :
    ∃ others, stretches = .comment body :: others ∧ Divides rest others := by
  have ends : Scan.afterComment? (body ++ '*' :: '/' :: rest) = some rest :=
    Scan.afterComment?_eq_some_iff.mpr ⟨body, first, rfl⟩
  generalize text : '/' :: '*' :: (body ++ '*' :: '/' :: rest) = chars at divides
  cases divides with
  | nil => cases text
  | @comment other behind stretches firstOther others =>
    have same : body ++ '*' :: '/' :: rest = other ++ '*' :: '/' :: behind := by simpa using text
    rw [same, Scan.afterComment?_eq_some_iff.mpr ⟨other, firstOther, rfl⟩] at ends
    obtain rfl := Option.some.inj ends
    obtain rfl := List.append_cancel_right same
    exact ⟨stretches, rfl, others⟩
  | openComment never =>
    obtain rfl : body ++ '*' :: '/' :: rest = _ := by simpa using text
    exact absurd ⟨body, rest, by simp⟩ never
  | token noComment _ _ => exact absurd ⟨_, text⟩ noComment

theorem of_openComment {body : List Char} (never : ¬ ['*', '/'] <:+: body)
    (divides : Divides ('/' :: '*' :: body) stretches) : stretches = [.openComment body] := by
  generalize text : '/' :: '*' :: body = chars at divides
  cases divides with
  | nil => cases text
  | @comment other behind =>
    obtain rfl : body = other ++ '*' :: '/' :: behind := by simpa using text
    exact absurd ⟨other, behind, by simp⟩ never
  | openComment =>
    obtain rfl : body = _ := by simpa using text
    rfl
  | token noComment _ _ => exact absurd ⟨_, text⟩ noComment

theorem of_token {c : Char} {more : List Char} {token : Token} {fault : Option LexFault}
    (noComment : ¬ ['/', '*'] <+: c :: (more ++ rest))
    (taken : Lexer.tokenAt c (more ++ rest) = ⟨token, fault, rest⟩)
    (divides : Divides (c :: (more ++ rest)) stretches) :
    ∃ others, stretches = .token (c :: more) token fault :: others ∧ Divides rest others := by
  generalize text : c :: (more ++ rest) = chars at *
  cases divides with
  | nil => cases text
  | comment | openComment => exact absurd ⟨_, rfl⟩ noComment
  | @token d moreOther behind tokenOther faultOther stretches _ takenOther others =>
    obtain ⟨rfl, same⟩ := List.cons.inj text
    rw [same, takenOther] at taken
    obtain ⟨rfl, rfl, rfl⟩ := Lexer.Step.mk.inj taken
    obtain rfl := List.append_cancel_right same
    exact ⟨stretches, rfl, others⟩

/-- **A text divides in one way only.** -/
theorem unique {chars : List Char} (divides : Divides chars stretches) :
    ∀ {others : List Stretch}, Divides chars others → others = stretches := by
  induction divides with
  | nil =>
    intro others other
    cases other
    rfl
  | comment first _ ih =>
    intro others other
    obtain ⟨further, rfl, dividesFurther⟩ := other.of_comment first
    rw [ih dividesFurther]
  | openComment never => exact fun other => other.of_openComment never
  | token noComment taken _ ih =>
    intro others other
    obtain ⟨further, rfl, dividesFurther⟩ := other.of_token noComment taken
    rw [ih dividesFurther]

end Divides

/-- **The tokens of a style sheet, with the comments between them, cover its text** one behind the
other, and the tokens behind any of them are those of the text behind it alone. -/
theorem tokenize_stretches (text : String) :
    ∃ stretches, (∀ others, Divides text.toList others ↔ others = stretches) ∧
      stretches.flatMap Stretch.chars = text.toList ∧
      (∀ stretch ∈ stretches, stretch.chars ≠ []) ∧
      (stretches.filterMap Stretch.token?).length ≤ text.toList.length ∧
      tokenize text =
        ⟨stretches.filterMap Stretch.token? ++ [.endOfFile],
          stretches.filterMap Stretch.fault?⟩ ∧
      .endOfFile ∉ stretches.filterMap Stretch.token? ∧
      ∀ before after, stretches = before ++ after →
        tokenize (String.ofList (text.toList.drop (before.flatMap Stretch.chars).length)) =
          ⟨after.filterMap Stretch.token? ++ [.endOfFile],
            after.filterMap Stretch.fault?⟩ := by
  obtain ⟨stretches, divides⟩ := exists_divides text.toList
  refine ⟨stretches, fun others => ⟨divides.unique, ?_⟩, divides.flatMap_chars,
    divides.chars_ne_nil, divides.length_tokens_le, divides.tokenizeChars_eq,
    divides.endOfFile_notMem, ?_⟩
  · rintro rfl
    exact divides
  · rintro before after rfl
    obtain ⟨rest, split, dividesRest⟩ := divides.behind
    show tokenizeChars (String.ofList _).toList = _
    rw [split, List.drop_left, String.toList_ofList]
    exact dividesRest.tokenizeChars_eq

end PagedHtml.Css
