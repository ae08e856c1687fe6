/-
**Strings and addresses with carriage returns in front of their line feeds.**

Behind a backslash a line feed makes a string go on, and a carriage return in front of it breaks the
string. The text of an address ends where a line feed stands behind the digits of an escape and a
carriage return takes its place in the escape. Apart from that both are taken alike.

* `stringRead`, `addressRead`: a string and an address are taken alike, or hold a line feed behind
  an escape;
* `skipAddress_crlf`: what follows a broken address is found alike, whatever the text.
-/

import PagedHtml.Proofs.Css.LineBreaks

namespace PagedHtml.Css.Scan

open Text (isSpace crlf crlf_nil crlf_newline crlf_cons dropWhile_crlf EndsInEscape)

variable {chars : List Char}

/-! ### Strings -/

/-- Whether a character is a quote. -/
def IsQuote (c : Char) : Prop := c = '"' ∨ c = '\''

theorem IsQuote.ne {quote c : Char} (isQuote : IsQuote quote) (other : c ≠ '"' ∧ c ≠ '\'') :
    c ≠ quote := by
  rcases isQuote with rfl | rfl
  · exact other.1
  · exact other.2

variable {quote : Char}

theorem takeString_newline (isQuote : IsQuote quote) (rest : List Char) :
    takeString quote ('\n' :: rest) = ⟨[], .broken, '\n' :: rest⟩ := by
  rw [takeString_cons quote (by decide), if_neg (isQuote.ne (by decide)), if_pos rfl]

theorem takeString_continued (isQuote : IsQuote quote) (rest : List Char) :
    takeString quote ('\\' :: '\n' :: rest) = takeString quote rest := by
  rw [takeString, if_neg (isQuote.ne (by decide)), if_neg (by decide), if_pos rfl]
  rfl

theorem takeString_escape {d : Char} (isQuote : IsQuote quote) (notFeed : d ≠ '\n')
    (rest : List Char) :
    takeString quote ('\\' :: d :: rest) =
      (takeString quote (takeEscape (d :: rest)).2).cons (takeEscape (d :: rest)).1 := by
  rw [takeString, if_neg (isQuote.ne (by decide)), if_neg (by decide), if_pos rfl]
  simp only [if_neg notFeed]

/-- How a string is taken of a text with carriage returns in front of its line feeds. -/
inductive StringRead (quote : Char) (chars : List Char) : Prop
  /-- It holds no line feed, and is taken alike. -/
  | kept (taken : List Char) (whole : chars = taken ++ (takeString quote chars).rest)
      (plain : '\n' ∉ taken) (sound : (takeString quote chars).ending ≠ .broken)
      (same : takeString quote (crlf chars) =
        { takeString quote chars with rest := crlf (takeString quote chars).rest })
  /-- It is broken at the first line feed, and both line breaks are left. -/
  | broken (rest : List Char) (breaks : (takeString quote chars).ending = .broken)
      (left : (takeString quote chars).rest = '\n' :: rest)
      (breaksCrlf : (takeString quote (crlf chars)).ending = .broken)
      (leftCrlf : (takeString quote (crlf chars)).rest = '\n' :: crlf rest)
  /-- It goes on behind a line feed, and is broken there. -/
  | cut (front back : List Char)
      (whole : chars = front ++ '\n' :: (back ++ (takeString quote chars).rest))
      (escape : EndsInEscape front)
      (more : (takeString quote chars).ending ≠ .broken →
        back ≠ [] ∨ (takeString quote chars).rest = [])
      (breaks : (takeString quote (crlf chars)).ending = .broken)

/-- A string that goes on with the string behind some of its characters is taken as that one is. -/
theorem StringRead.append {rest : List Char} {first : Char} (read : StringRead quote rest)
    (front : List Char) (split : chars = front ++ rest) (plain : '\n' ∉ front)
    (taken : takeString quote chars = (takeString quote rest).cons first)
    (crlfTaken : takeString quote (crlf chars) = (takeString quote (crlf rest)).cons first) :
    StringRead quote chars := by
  have left : (takeString quote chars).rest = (takeString quote rest).rest := by rw [taken]; rfl
  have ending : (takeString quote chars).ending = (takeString quote rest).ending := by
    rw [taken]; rfl
  have endingCrlf : (takeString quote (crlf chars)).ending =
      (takeString quote (crlf rest)).ending := by
    rw [crlfTaken]; rfl
  cases read with
  | kept inside whole plainInside sound same =>
    refine .kept (front ++ inside) ?_ ?_ (ending ▸ sound) ?_
    · rw [left, split, List.append_assoc, ← whole]
    · simpa [plain] using plainInside
    · rw [crlfTaken, taken, same]
      rfl
  | broken after breaks leftRest breaksCrlf leftCrlf =>
    refine .broken after (ending.trans breaks) (left.trans leftRest)
      (endingCrlf.trans breaksCrlf) ?_
    rw [crlfTaken]
    exact leftCrlf
  | cut inside back whole escape more breaks =>
    refine .cut (front ++ inside) back ?_ (escape.append front) ?_ (endingCrlf.trans breaks)
    · rw [left, split, List.append_assoc, ← whole]
    · rw [left, ending]
      exact more

/-- What is read on behind a line feed takes some characters, or the text ends there. -/
theorem back_ne_nil {back : List Char} (whole : back ++ (takeString quote chars).rest = chars)
    (sound : (takeString quote chars).ending ≠ .broken) :
    back ≠ [] ∨ (takeString quote chars).rest = [] := by
  rcases takeString_taken quote chars with breaks | nothing | shorter
  · exact absurd breaks sound
  · exact .inr nothing
  · refine .inl fun none => ?_
    have lengths := congrArg List.length whole
    rw [none, List.nil_append] at lengths
    exact absurd lengths shorter.ne

/-- A string that goes on behind the line feed of an escape is broken there. -/
theorem StringRead.of_parted {digits after : List Char} {first : Char}
    (split : chars = digits ++ '\n' :: after) (escape : EndsInEscape digits)
    (taken : takeString quote chars = (takeString quote after).cons first)
    (breaks : (takeString quote (crlf chars)).ending = .broken) : StringRead quote chars := by
  obtain ⟨back, whole⟩ := takeString_suffix quote after
  have left : (takeString quote chars).rest = (takeString quote after).rest := by rw [taken]; rfl
  have ending : (takeString quote chars).ending = (takeString quote after).ending := by
    rw [taken]; rfl
  refine .cut digits back ?_ escape ?_ breaks
  · rw [left, whole, ← split]
  · rw [left, ending]
    exact back_ne_nil whole

theorem takeString_quote (quote : Char) (rest : List Char) :
    takeString quote (quote :: rest) = ⟨[], .closed, rest⟩ := by
  rw [takeString.eq_def]
  exact if_pos rfl

/-- **A string is taken alike, or a line feed stands behind one of its escapes.** -/
theorem stringRead (isQuote : IsQuote quote) (chars : List Char) : StringRead quote chars := by
  fun_induction takeString quote chars with
  | case1 =>
    exact .kept [] (by rw [takeString]; rfl) List.not_mem_nil (by rw [takeString]; decide)
      (by rw [crlf_nil, takeString]; rfl)
  | case2 rest =>
    have notFeed : quote ≠ '\n' := (isQuote.ne (by decide)).symm
    have closes := takeString_quote quote
    refine .kept [quote] (by rw [closes]; rfl) (by simpa using notFeed.symm)
      (by rw [closes]; exact Ending.noConfusion) ?_
    rw [crlf_cons notFeed, closes, closes]
  | case3 rest =>
    have breaks := takeString_newline isQuote
    have breaksCrlf : takeString quote (crlf ('\n' :: rest)) =
        ⟨['\r'], .broken, '\n' :: crlf rest⟩ := by
      rw [crlf_newline, takeString_cons quote (by decide), if_neg (isQuote.ne (by decide)),
        if_neg (by decide), breaks]
      rfl
    exact .broken rest (by rw [breaks]) (by rw [breaks]) (by rw [breaksCrlf]) (by rw [breaksCrlf])
  | case4 =>
    have cuts : takeString quote ['\\'] = ⟨[], .cutOff, []⟩ := by
      rw [takeString, if_neg (isQuote.ne (by decide)), if_neg (by decide), if_pos rfl]
    exact .kept ['\\'] (by rw [cuts]; rfl) (by decide) (by rw [cuts]; decide)
      (by rw [show crlf ['\\'] = ['\\'] from rfl, cuts]; rfl)
  | case5 more =>
    -- A backslash and a carriage return are an escape, and the line feed behind them is left.
    obtain ⟨back, whole⟩ := takeString_suffix quote more
    have breaks : (takeString quote (crlf ('\\' :: '\n' :: more))).ending = .broken := by
      rw [crlf_cons (by decide), crlf_newline, takeString_escape isQuote (by decide)]
      exact congrArg Quotation.ending (takeString_newline isQuote (crlf more))
    refine .cut ['\\'] back ?_ (Text.endsInEscape_digits (by simp) (by simp)) ?_ breaks
    · rw [takeString_continued isQuote, whole]
      rfl
    · rw [takeString_continued isQuote]
      exact back_ne_nil whole
  | case6 d more notFeed escaped _ _ ih =>
    have valid : startsEscape (d :: more) = true := startsEscape_iff.mpr (by simpa using notFeed)
    have taken := takeString_escape isQuote notFeed more
    have crlfTaken := takeString_escape isQuote notFeed (crlf more)
    rw [← crlf_cons notFeed, ← crlf_cons (by decide)] at crlfTaken
    rcases escapeRead valid with ⟨front, split, plain, same⟩ | ⟨digits, split, plain, escape, same⟩
    · rw [same] at crlfTaken
      refine ih.append ('\\' :: front) ?_ ?_ taken crlfTaken
      · rw [List.cons_append, ← split]
      · simpa using plain
    · rw [same, takeString_newline isQuote] at crlfTaken
      refine .of_parted ?_ escape taken (by rw [crlfTaken]; rfl)
      rw [List.cons_append, ← split]
  | case7 c rest notQuote notFeed notEscape ih =>
    have goes (more : List Char) :
        takeString quote (c :: more) = (takeString quote more).cons c := by
      rw [takeString_cons quote notEscape, if_neg notQuote, if_neg notFeed]
    refine ih.append [c] rfl (by simpa using Ne.symm notFeed) (goes rest) ?_
    rw [crlf_cons notFeed]
    exact goes _

/-! ### Addresses -/

theorem skipAddress_cons {c : Char} (notClosing : c ≠ ')') (notEscape : c ≠ '\\')
    (rest : List Char) : skipAddress (c :: rest) = skipAddress rest := by
  rw [skipAddress, if_neg notClosing, if_neg (by simp [notEscape])]

theorem skipAddress_escape (valid : startsEscape chars = true) :
    skipAddress ('\\' :: chars) = skipAddress (takeEscape chars).2 := by
  rw [skipAddress, if_neg (by decide), if_pos (by rw [valid]; rfl)]

/-- **What follows a broken address is found alike**, whatever the text. -/
theorem skipAddress_crlf (chars : List Char) :
    skipAddress (crlf chars) = crlf (skipAddress chars) := by
  fun_induction skipAddress chars with
  | case1 => rw [crlf_nil, skipAddress]
  | case2 rest => rw [crlf_cons (by decide), skipAddress, if_pos rfl]
  | case3 c rest _ escape ih =>
    obtain ⟨rfl, valid⟩ : c = '\\' ∧ startsEscape rest = true := by simpa using escape
    rw [crlf_cons (by decide), skipAddress_escape (startsEscape_crlf rest), ← ih]
    rcases escapeRead valid with ⟨_, _, _, same⟩ | ⟨_, _, _, _, same⟩
    · rw [same]
    · rw [same]
      exact skipAddress_cons (by decide) (by decide) _
  | case4 c rest notClosing notEscape ih =>
    rw [← ih]
    by_cases feed : c = '\n'
    · subst feed
      rw [crlf_newline, skipAddress_cons (by decide) (by decide),
        skipAddress_cons (by decide) (by decide)]
    · rw [crlf_cons feed]
      by_cases backslash : c = '\\'
      · subst backslash
        obtain ⟨more, rfl⟩ := exists_newline_of_not_startsEscape
          (by simpa using notEscape : ¬ startsEscape rest = true)
        rw [skipAddress_escape (startsEscape_crlf _), crlf_newline,
          skipAddress_cons (by decide) (by decide)]
        rfl
      · exact skipAddress_cons notClosing backslash _

/-- The end of an address, of which the spaces before it are already taken. -/
def endAddress : List Char → Quotation
  | [] => ⟨[], .cutOff, []⟩
  | d :: more => if d = ')' then ⟨[], .closed, more⟩ else ⟨[], .broken, skipAddress (d :: more)⟩

theorem endAddress_crlf (chars : List Char) :
    endAddress (crlf chars) = { endAddress chars with rest := crlf (endAddress chars).rest } := by
  cases chars with
  | nil => rfl
  | cons d more =>
    have skipped := skipAddress_crlf (d :: more)
    by_cases feed : d = '\n'
    · subst feed
      rw [crlf_newline] at skipped ⊢
      simp only [endAddress, if_neg (by decide : ¬ '\r' = ')'), if_neg (by decide : ¬ '\n' = ')'),
        skipped]
    · rw [crlf_cons feed] at skipped ⊢
      simp only [endAddress, skipped]
      split <;> rfl

/-- What may follow the text of an address: spaces and its closing parenthesis. -/
def EndsAddress (d : Char) : Prop := isSpace d = true ∨ d = ')'

theorem takeAddress_space (space : chars.head?.any isSpace = true) :
    takeAddress chars = endAddress (chars.dropWhile isSpace) := by
  cases chars with
  | nil => cases space
  | cons c rest =>
    have isSpace : isSpace c = true := space
    have notClosing : c ≠ ')' := fun same => absurd isSpace (by rw [same]; decide)
    rw [takeAddress, if_neg notClosing, if_pos isSpace, List.dropWhile_cons_of_pos isSpace]
    rfl

theorem takeAddress_of_ends (ends : ∀ d ∈ chars.head?, EndsAddress d) :
    takeAddress chars = endAddress (chars.dropWhile isSpace) := by
  cases chars with
  | nil => rw [takeAddress]; rfl
  | cons c rest =>
    rcases ends c rfl with space | rfl
    · exact takeAddress_space space
    · rw [takeAddress, if_pos rfl]
      rfl

/-- Behind the text of an address only spaces and its closing parenthesis are taken. -/
theorem endsAddress_of_mem (ends : ∀ d ∈ chars.head?, EndsAddress d) {taken : List Char}
    (whole : chars = taken ++ (takeAddress chars).rest)
    (sound : (takeAddress chars).ending ≠ .broken) : ∀ d ∈ taken, EndsAddress d := by
  have split := List.takeWhile_append_dropWhile (p := isSpace) (l := chars)
  have spaces : ∀ d ∈ chars.takeWhile isSpace, EndsAddress d := fun d member =>
    .inl (List.all_eq_true.mp List.all_takeWhile d member)
  rw [takeAddress_of_ends ends] at whole sound
  generalize chars.dropWhile isSpace = left at split whole sound
  rw [← split] at whole
  rcases left with _ | ⟨d, more⟩
  · obtain rfl : chars.takeWhile isSpace = taken := by simpa [endAddress] using whole
    exact spaces
  · by_cases closing : d = ')'
    · subst closing
      simp only [endAddress, if_pos] at whole
      rw [List.append_cons, List.append_cancel_right_eq] at whole
      rw [← whole, List.forall_mem_append]
      exact ⟨spaces, List.forall_mem_singleton.mpr (.inr rfl)⟩
    · simp only [endAddress, if_neg closing] at sound
      exact absurd rfl sound

/-- Behind every line feed of the text stands a space, its closing parenthesis, or nothing. -/
def IsSpaced (taken : List Char) : Prop :=
  ∀ front back, taken = front ++ '\n' :: back → ∀ d ∈ back.head?, EndsAddress d

theorem isSpaced_of_forall (ends : ∀ d ∈ chars, EndsAddress d) : IsSpaced chars := by
  rintro front back rfl d first
  exact ends d (by simp [List.mem_of_mem_head? first])

theorem IsSpaced.append {front : List Char} (spaced : IsSpaced chars) (plain : '\n' ∉ front) :
    IsSpaced (front ++ chars) := by
  intro before behind split
  rcases List.append_eq_append_iff.mp split with ⟨more, rfl, rest⟩ | ⟨more, rfl, rest⟩
  · exact spaced more behind rest
  · cases more with
    | nil => exact spaced [] behind (by simpa using rest.symm)
    | cons c more =>
      obtain ⟨rfl, -⟩ := List.cons.inj rest
      exact absurd (by simp) plain

/-- How an address is taken of a text with carriage returns in front of its line feeds. -/
inductive AddressRead (chars : List Char) : Prop
  /-- It is taken alike; if it is not broken, its line feeds stand behind its text. -/
  | kept (taken : List Char) (whole : chars = taken ++ (takeAddress chars).rest)
      (spaced : (takeAddress chars).ending ≠ .broken → IsSpaced taken)
      (same : takeAddress (crlf chars) =
        { takeAddress chars with rest := crlf (takeAddress chars).rest })
  /-- It goes on behind a line feed, and is broken there or before. -/
  | cut (front : List Char) (d : Char) (back : List Char)
      (whole : chars = front ++ '\n' :: d :: (back ++ (takeAddress chars).rest))
      (escape : EndsInEscape front) (goesOn : ¬ EndsAddress d)
      (sound : (takeAddress chars).ending ≠ .broken)
      (breaks : (takeAddress (crlf chars)).ending = .broken)
  /-- It is broken, and there is an escape with a line feed in it. -/
  | broken (front back : List Char)
      (whole : chars = front ++ '\n' :: (back ++ (takeAddress chars).rest))
      (escape : EndsInEscape front) (breaks : (takeAddress chars).ending = .broken)

/-- An address that goes on with the address behind some of its characters is taken as that one
is. -/
theorem AddressRead.append {rest : List Char} {first : Char} (read : AddressRead rest)
    (front : List Char) (split : chars = front ++ rest) (plain : '\n' ∉ front)
    (taken : takeAddress chars = (takeAddress rest).cons first)
    (crlfTaken : takeAddress (crlf chars) = (takeAddress (crlf rest)).cons first) :
    AddressRead chars := by
  have left : (takeAddress chars).rest = (takeAddress rest).rest := by rw [taken]; rfl
  have ending : (takeAddress chars).ending = (takeAddress rest).ending := by rw [taken]; rfl
  cases read with
  | kept inside whole spaced same =>
    refine .kept (front ++ inside) ?_ ?_ ?_
    · rw [left, split, List.append_assoc, ← whole]
    · rw [ending]
      exact fun sound => (spaced sound).append plain
    · rw [crlfTaken, taken, same]
      rfl
  | cut inside d back whole escape goesOn sound breaks =>
    refine .cut (front ++ inside) d back ?_ (escape.append front) goesOn (ending ▸ sound) ?_
    · rw [left, split, List.append_assoc, ← whole]
    · rw [crlfTaken]
      exact breaks
  | broken inside back whole escape breaks =>
    refine .broken (front ++ inside) back ?_ (escape.append front) (ending.trans breaks)
    rw [left, split, List.append_assoc, ← whole]

theorem takeAddress_escape {rest : List Char} (valid : startsEscape rest = true) :
    takeAddress ('\\' :: rest) = (takeAddress (takeEscape rest).2).cons (takeEscape rest).1 := by
  rw [takeAddress, if_neg (by decide), if_neg (by decide), if_neg (by decide), if_pos rfl,
    if_pos valid]

/-- An address that goes on takes a character at least. -/
theorem takeAddress_suffix_of_goesOn {c : Char} (goesOn : ¬ EndsAddress c) (rest : List Char) :
    (takeAddress (c :: rest)).rest <:+ rest := by
  obtain ⟨visible, notClosing⟩ := not_or.mp goesOn
  rw [takeAddress, if_neg notClosing, if_neg visible]
  split
  · exact skipAddress_suffix rest
  · split
    · split
      · exact (takeAddress_suffix _).trans (takeEscape_suffix rest)
      · exact skipAddress_suffix rest
    · exact takeAddress_suffix rest

theorem AddressRead.of_ends (ends : ∀ d ∈ chars.head?, EndsAddress d) : AddressRead chars := by
  obtain ⟨taken, whole⟩ := takeAddress_suffix chars
  have endsCrlf : ∀ d ∈ (crlf chars).head?, EndsAddress d := by
    cases chars with
    | nil => exact ends
    | cons c rest =>
      by_cases feed : c = '\n'
      · subst feed
        rintro d first
        obtain rfl : '\r' = d := by simpa using first
        exact .inl (by decide)
      · rw [crlf_cons feed]
        exact ends
  refine .kept taken whole.symm (fun sound => isSpaced_of_forall ?_) ?_
  · exact endsAddress_of_mem ends whole.symm sound
  · rw [takeAddress_of_ends ends, takeAddress_of_ends endsCrlf, dropWhile_crlf (by decide),
      endAddress_crlf]

/-- Behind the line feed of an escape an address ends, or is broken in one of the texts at
least. -/
theorem AddressRead.of_parted {digits after : List Char} {first : Char}
    (split : chars = digits ++ '\n' :: after) (plain : '\n' ∉ digits)
    (escape : EndsInEscape digits)
    (taken : takeAddress chars = (takeAddress after).cons first)
    (crlfTaken : takeAddress (crlf chars) = (takeAddress ('\n' :: crlf after)).cons first) :
    AddressRead chars := by
  have left : (takeAddress chars).rest = (takeAddress after).rest := by rw [taken]; rfl
  have ending : (takeAddress chars).ending = (takeAddress after).ending := by rw [taken]; rfl
  have endCrlf : takeAddress ('\n' :: crlf after) =
      endAddress (crlf (after.dropWhile isSpace)) := by
    rw [takeAddress_space rfl, List.dropWhile_cons_of_pos (by decide), dropWhile_crlf (by decide)]
  by_cases ends : ∀ d ∈ after.head?, EndsAddress d
  · obtain ⟨back, whole⟩ := takeAddress_suffix after
    refine .kept (digits ++ '\n' :: back) ?_ ?_ ?_
    · rw [left, List.append_assoc, List.cons_append, whole, ← split]
    · rw [ending]
      intro sound
      refine (isSpaced_of_forall ?_).append plain
      exact List.forall_mem_cons.mpr ⟨.inl (by decide), endsAddress_of_mem ends whole.symm sound⟩
    · rw [crlfTaken, taken, endCrlf, endAddress_crlf, takeAddress_of_ends ends]
      rfl
  · obtain ⟨d, first, goesOn⟩ : ∃ d, after.head? = some d ∧ ¬ EndsAddress d := by
      simpa using ends
    obtain ⟨more, behind⟩ := List.head?_eq_some_iff.mp first
    obtain ⟨back, whole⟩ := behind ▸ takeAddress_suffix_of_goesOn goesOn more
    have parts : chars = digits ++ '\n' :: d :: (back ++ (takeAddress chars).rest) := by
      rw [left, whole, ← behind, ← split]
    by_cases sound : (takeAddress after).ending = .broken
    · exact .broken _ (d :: back) parts escape (ending.trans sound)
    · refine .cut _ d back parts escape goesOn (ending ▸ sound) ?_
      obtain ⟨visible, notClosing⟩ := not_or.mp goesOn
      rw [crlfTaken, endCrlf, endAddress_crlf, behind, List.dropWhile_cons_of_neg visible]
      simp only [endAddress, if_neg notClosing, Quotation.cons]

/-- **An address is taken alike, or a line feed stands behind one of its escapes.** -/
theorem addressRead (chars : List Char) : AddressRead chars := by
  fun_induction takeAddress chars with
  | case1 => exact .of_ends (by simp)
  | case2 => exact .of_ends (by simp [EndsAddress])
  | case3 c _ _ space | case4 c _ _ space | case5 c _ _ space =>
    exact .of_ends (by simp [EndsAddress, space])
  | case6 c rest notClosing visible breaking =>
    have notFeed : c ≠ '\n' := fun same => visible (by rw [same]; decide)
    have breaks (more : List Char) : takeAddress (c :: more) = ⟨[], .broken, skipAddress more⟩ := by
      rw [takeAddress, if_neg notClosing, if_neg visible, if_pos breaking]
    obtain ⟨taken, whole⟩ := takeAddress_suffix (c :: rest)
    refine .kept taken whole.symm (fun sound => absurd (by rw [breaks]) sound) ?_
    rw [crlf_cons notFeed, breaks, breaks, skipAddress_crlf]
  | case7 rest valid escaped _ _ _ ih =>
    have taken := takeAddress_escape valid
    have crlfTaken : takeAddress (crlf ('\\' :: rest)) = _ :=
      takeAddress_escape (startsEscape_crlf rest)
    rcases escapeRead valid with ⟨front, split, plain, same⟩ | ⟨digits, split, plain, escape, same⟩
    · rw [same] at crlfTaken
      refine ih.append ('\\' :: front) ?_ ?_ taken crlfTaken
      · rw [List.cons_append, ← split]
      · simpa using plain
    · rw [same] at crlfTaken
      refine .of_parted ?_ ?_ escape taken crlfTaken
      · rw [List.cons_append, ← split]
      · simpa using plain
  | case8 rest notEscape =>
    obtain ⟨more, rfl⟩ := exists_newline_of_not_startsEscape notEscape
    have breaks : takeAddress ('\\' :: '\n' :: more) =
        ⟨[], .broken, skipAddress ('\n' :: more)⟩ := by
      rw [takeAddress, if_neg (by decide), if_neg (by decide), if_neg (by decide), if_pos rfl,
        if_neg notEscape]
    have skips : skipAddress ('\n' :: more) = skipAddress more :=
      skipAddress_cons (by decide) (by decide) more
    obtain ⟨back, whole⟩ := skipAddress_suffix more
    refine .broken ['\\'] back ?_ (Text.endsInEscape_digits (by simp) (by simp)) (by rw [breaks])
    rw [breaks, skips, whole]
    rfl
  | case9 c rest notClosing visible goesOn notEscape ih =>
    have notFeed : c ≠ '\n' := fun same => visible (by rw [same]; decide)
    have goes (more : List Char) : takeAddress (c :: more) = (takeAddress more).cons c := by
      rw [takeAddress, if_neg notClosing, if_neg visible, if_neg goesOn, if_neg notEscape]
    refine ih.append [c] rfl (by simpa using Ne.symm notFeed) (goes rest) ?_
    rw [crlf_cons notFeed]
    exact goes _

end PagedHtml.Css.Scan
