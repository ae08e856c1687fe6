/-
**Carriage returns in front of the line feeds, and what is taken from the front of the text.**

A line may end with a line feed, or with a carriage return and a line feed (`crlf`). Both characters
are spaces, and without an escape no name or number holds either, so that most scanners take the
same of both texts. A line feed behind an escape (`EndsInEscape`) is the exception. A backslash and
a line feed are no escape, but a backslash and a carriage return are. Behind the digits of an escape
the line feed belongs to it; so does the carriage return, and then the line feed is left.

* `Number.Literal.take_crlf`: a number is taken alike, whatever the text;
* `Css.Scan.escapeRead`, `nameRead`: an escape and a name are taken alike, or hold a line feed
  behind an escape;
* `Css.Scan.startsName_crlf`, `startsNumber_crlf`: where names and numbers start.
-/

import PagedHtml.Proofs.Css.Lexeme

namespace PagedHtml

namespace Text

/-- The characters with a carriage return in front of every line feed. -/
def crlf : List Char → List Char
  | [] => []
  | c :: rest => if c = '\n' then '\r' :: '\n' :: crlf rest else c :: crlf rest

@[simp]
theorem crlf_nil : crlf [] = [] :=
  rfl

@[simp]
theorem crlf_newline (rest : List Char) : crlf ('\n' :: rest) = '\r' :: '\n' :: crlf rest :=
  rfl

theorem crlf_cons {c : Char} (other : c ≠ '\n') (rest : List Char) :
    crlf (c :: rest) = c :: crlf rest :=
  if_neg other

variable {chars lead : List Char} {p : Char → Bool}

theorem crlf_append (chars others : List Char) :
    crlf (chars ++ others) = crlf chars ++ crlf others := by
  induction chars with
  | nil => rfl
  | cons c chars ih =>
    by_cases feed : c = '\n'
    · subst feed
      rw [List.cons_append, crlf_newline, crlf_newline, ih]
      rfl
    · rw [List.cons_append, crlf_cons feed, crlf_cons feed, ih]
      rfl

theorem crlf_of_notMem (plain : '\n' ∉ chars) : crlf chars = chars := by
  induction chars with
  | nil => rfl
  | cons c chars ih =>
    obtain ⟨here, later⟩ := not_or.mp (mt List.mem_cons.mpr plain)
    rw [crlf_cons (Ne.symm here), ih later]

theorem length_le_crlf (chars : List Char) : chars.length ≤ (crlf chars).length := by
  induction chars with
  | nil => exact Nat.le_refl 0
  | cons c chars ih =>
    by_cases feed : c = '\n'
    · subst feed
      simp only [crlf_newline, List.length_cons]
      omega
    · simp only [crlf_cons feed, List.length_cons]
      omega

/-- Where both texts are the same there is no line feed. -/
theorem notMem_of_crlf_eq (same : crlf chars = chars) : '\n' ∉ chars := by
  intro member
  obtain ⟨front, back, rfl⟩ := List.append_of_mem member
  have lengths := congrArg List.length same
  have frontLength := length_le_crlf front
  have backLength := length_le_crlf back
  simp only [crlf_append, crlf_newline, List.length_append, List.length_cons] at lengths
  omega

theorem head?_crlf_ne_newline (chars : List Char) : (crlf chars).head? ≠ some '\n' := by
  cases chars with
  | nil => simp
  | cons c rest =>
    by_cases feed : c = '\n'
    · subst feed
      simp
    · rw [crlf_cons feed]
      simpa using feed

theorem head?_crlf_eq_iff {c : Char} (notReturn : c ≠ '\r') (notFeed : c ≠ '\n') :
    (crlf chars).head? = some c ↔ chars.head? = some c := by
  cases chars with
  | nil => rfl
  | cons d rest =>
    by_cases feed : d = '\n'
    · subst feed
      simp [notReturn.symm, notFeed.symm]
    · rw [crlf_cons feed]
      rfl

theorem any_head?_crlf (alike : p '\r' = p '\n') :
    (crlf chars).head?.any p = chars.head?.any p := by
  cases chars with
  | nil => rfl
  | cons c rest =>
    by_cases feed : c = '\n'
    · subst feed
      exact alike
    · rw [crlf_cons feed]
      rfl

theorem dropWhile_crlf (alike : p '\r' = p '\n') :
    (crlf chars).dropWhile p = crlf (chars.dropWhile p) := by
  induction chars with
  | nil => rfl
  | cons c rest ih =>
    by_cases feed : c = '\n'
    · subst feed
      cases space : p '\n' with
      | true => simp [alike, space, ih]
      | false => simp [alike, space]
    · rw [crlf_cons feed, List.dropWhile_cons, List.dropWhile_cons, ih]
      split
      · rfl
      · rw [crlf_cons feed]

theorem takeWhile_take_crlf (noReturn : p '\r' = false) (noFeed : p '\n' = false) (bound : Nat) :
    ((crlf chars).take bound).takeWhile p = (chars.take bound).takeWhile p := by
  induction chars generalizing bound with
  | nil => rfl
  | cons c rest ih =>
    cases bound with
    | zero => rfl
    | succ bound =>
      by_cases feed : c = '\n'
      · subst feed
        simp [noReturn, noFeed]
      · rw [crlf_cons feed, List.take_succ_cons, List.take_succ_cons, List.takeWhile_cons,
          List.takeWhile_cons, ih]

theorem takeWhile_crlf (noReturn : p '\r' = false) (noFeed : p '\n' = false) :
    (crlf chars).takeWhile p = chars.takeWhile p := by
  have same := @takeWhile_take_crlf chars p noReturn noFeed
    (max (crlf chars).length chars.length)
  rwa [List.take_of_length_le (le_max_left _ _), List.take_of_length_le (le_max_right _ _)] at same

/-- A text without line breaks starts both texts or none. -/
theorem prefix_crlf_iff (noReturn : '\r' ∉ lead) (noFeed : '\n' ∉ lead) :
    lead <+: crlf chars ↔ lead <+: chars := by
  induction lead generalizing chars with
  | nil => exact iff_of_true List.nil_prefix List.nil_prefix
  | cons l lead ih =>
    obtain ⟨notReturn, noReturnLater⟩ := not_or.mp (mt List.mem_cons.mpr noReturn)
    obtain ⟨notFeed, noFeedLater⟩ := not_or.mp (mt List.mem_cons.mpr noFeed)
    cases chars with
    | nil => rfl
    | cons c rest =>
      by_cases feed : c = '\n'
      · subst feed
        rw [crlf_newline, List.cons_prefix_cons, List.cons_prefix_cons]
        exact iff_of_false (fun same => notReturn same.1.symm) (fun same => notFeed same.1.symm)
      · rw [crlf_cons feed, List.cons_prefix_cons, List.cons_prefix_cons,
          ih noReturnLater noFeedLater]

theorem take_crlf_eq_iff (lead : List Char) (noReturn : '\r' ∉ lead) (noFeed : '\n' ∉ lead) :
    (crlf chars).take lead.length = lead ↔ chars.take lead.length = lead := by
  have both := @prefix_crlf_iff chars lead noReturn noFeed
  rwa [List.prefix_iff_eq_take, List.prefix_iff_eq_take, eq_comm, @eq_comm _ lead] at both

/-- A text without line breaks stands in both texts or in none. -/
theorem infix_crlf_iff (noReturn : '\r' ∉ lead) (noFeed : '\n' ∉ lead) (some : lead ≠ []) :
    lead <:+: crlf chars ↔ lead <:+: chars := by
  induction chars with
  | nil => rfl
  | cons c rest ih =>
    have here : lead <+: crlf (c :: rest) ↔ lead <+: c :: rest :=
      prefix_crlf_iff noReturn noFeed
    by_cases feed : c = '\n'
    · subst feed
      have notBehind : ¬ lead <+: '\n' :: crlf rest := by
        obtain ⟨l, more, rfl⟩ := List.exists_cons_of_ne_nil some
        intro starts
        obtain ⟨rfl, -⟩ := List.cons_prefix_cons.mp starts
        exact noFeed List.mem_cons_self
      rw [crlf_newline] at here ⊢
      rw [List.infix_cons_iff, List.infix_cons_iff, List.infix_cons_iff, ih, here,
        or_iff_right notBehind]
    · rw [crlf_cons feed] at here ⊢
      rw [List.infix_cons_iff, List.infix_cons_iff, ih, here]

theorem drop_crlf (starts : lead <+: chars) (plain : '\n' ∉ lead) :
    (crlf chars).drop lead.length = crlf (chars.drop lead.length) := by
  obtain ⟨rest, rfl⟩ := starts
  rw [crlf_append, crlf_of_notMem plain, List.drop_left, List.drop_left]

/-- The characters end with a backslash and at most six hexadecimal digits. -/
def EndsInEscape (chars : List Char) : Prop :=
  ∃ before digits, chars = before ++ '\\' :: digits ∧ (∀ d ∈ digits, isHexDigit d = true) ∧
    digits.length ≤ 6

theorem EndsInEscape.append (escape : EndsInEscape chars) (before : List Char) :
    EndsInEscape (before ++ chars) := by
  obtain ⟨middle, digits, rfl, hex, short⟩ := escape
  exact ⟨before ++ middle, digits, (List.append_assoc _ _ _).symm, hex, short⟩

theorem EndsInEscape.cons (escape : EndsInEscape chars) (c : Char) : EndsInEscape (c :: chars) :=
  escape.append [c]

theorem endsInEscape_digits {digits : List Char} (hex : ∀ d ∈ digits, isHexDigit d = true)
    (short : digits.length ≤ 6) : EndsInEscape ('\\' :: digits) :=
  ⟨[], digits, rfl, hex, short⟩

/-- An escape ends with no space and no parenthesis. -/
theorem EndsInEscape.getLast? (escape : EndsInEscape chars) :
    ∃ d, chars.getLast? = some d ∧ isSpace d = false ∧ d ≠ '(' := by
  obtain ⟨before, digits, rfl, hex, -⟩ := escape
  rcases List.eq_nil_or_concat digits with rfl | ⟨front, d, rfl⟩
  · exact ⟨'\\', by simp, by decide, by decide⟩
  · have digit := hex d (by simp)
    refine ⟨d, by simp [List.getLast?_cons], ?_, ?_⟩
    · by_contra space
      rw [Bool.not_eq_false] at space
      simp only [isSpace, Bool.or_eq_true, beq_iff_eq] at space
      rcases space with (((rfl | rfl) | rfl) | rfl) | rfl <;> exact absurd digit (by decide)
    · rintro rfl
      exact absurd digit (by decide)

end Text

open Text (crlf crlf_cons crlf_newline crlf_nil crlf_append crlf_of_notMem any_head?_crlf
  dropWhile_crlf takeWhile_crlf EndsInEscape)

/-! ### Numbers -/

namespace Number.Literal

theorem takeSign_crlf (chars : List Char) :
    takeSign (crlf chars) = ((takeSign chars).1, crlf (takeSign chars).2) := by
  cases chars with
  | nil => rfl
  | cons c rest =>
    by_cases feed : c = '\n'
    · subst feed
      rfl
    · rw [crlf_cons feed, takeSign, takeSign]
      split
      · rfl
      · rw [crlf_cons feed]

theorem startsWithDigit_crlf (chars : List Char) :
    startsWithDigit (crlf chars) = startsWithDigit chars :=
  any_head?_crlf (by decide)

theorem takeFraction_crlf (chars : List Char) :
    takeFraction (crlf chars) = ((takeFraction chars).1, crlf (takeFraction chars).2) := by
  cases chars with
  | nil => rfl
  | cons c rest =>
    by_cases feed : c = '\n'
    · subst feed
      rfl
    · rw [crlf_cons feed, takeFraction, takeFraction, startsWithDigit_crlf,
        takeWhile_crlf (by decide) (by decide), dropWhile_crlf (by decide)]
      split
      · rfl
      · rw [crlf_cons feed]

theorem takeExponent_crlf (chars : List Char) :
    takeExponent (crlf chars) = ((takeExponent chars).1, crlf (takeExponent chars).2) := by
  cases chars with
  | nil => rfl
  | cons c rest =>
    by_cases feed : c = '\n'
    · subst feed
      rfl
    · simp only [crlf_cons feed, takeExponent, takeSign_crlf, startsWithDigit_crlf,
        takeWhile_crlf (p := Char.isDigit) (by decide) (by decide),
        dropWhile_crlf (p := Char.isDigit) (by decide)]
      split
      · rfl
      · rw [crlf_cons feed]

/-- **A number is taken alike**, whatever the text. -/
theorem take_crlf (chars : List Char) :
    take (crlf chars) = ((take chars).1, crlf (take chars).2) := by
  simp only [take, takeSign_crlf, takeFraction_crlf, takeExponent_crlf,
    takeWhile_crlf (p := Char.isDigit) (by decide) (by decide),
    dropWhile_crlf (p := Char.isDigit) (by decide)]

end Number.Literal

namespace Css.Scan

open Text (isSpace isHexDigit)

variable {chars : List Char}

/-! ### Escapes -/

/-- What starts an escape goes on to do so: a carriage return does, too. -/
theorem startsEscape_crlf (chars : List Char) : startsEscape (crlf chars) = true := by
  rw [startsEscape, bne_iff_ne]
  exact Text.head?_crlf_ne_newline chars

theorem exists_newline_of_not_startsEscape (notEscape : ¬ startsEscape chars = true) :
    ∃ rest, chars = '\n' :: rest := by
  rw [startsEscape, bne_iff_ne, not_not] at notEscape
  exact List.head?_eq_some_iff.mp notEscape

theorem startsEscape_iff : startsEscape chars = true ↔ chars.head? ≠ some '\n' := by
  rw [startsEscape, bne_iff_ne]

/-- What an escape leaves, of which the digits are already taken: one space belongs to it. -/
def afterDigits (chars : List Char) : List Char :=
  if chars.head?.any isSpace then chars.drop 1 else chars

/-- The digits of an escape are the same in both texts. -/
theorem takeEscape_hex {c : Char} (hex : isHexDigit c = true) (rest : List Char) :
    ∃ digits after denoted, c :: rest = digits ++ after ∧
      (∀ d ∈ digits, isHexDigit d = true) ∧ digits.length ≤ 6 ∧
      takeEscape (c :: rest) = (denoted, afterDigits after) ∧
      takeEscape (crlf (c :: rest)) = (denoted, afterDigits (crlf after)) := by
  generalize more : (rest.take 5).takeWhile isHexDigit = digits
  obtain ⟨after, rfl⟩ : digits <+: rest :=
    more ▸ ( List.takeWhile_prefix _).trans ( List.take_prefix 5 rest)
  have allHex : ∀ d ∈ digits, isHexDigit d = true := fun d member =>
    List.all_eq_true.mp List.all_takeWhile d (more ▸ member)
  have notFeed : c ≠ '\n' := fun same => absurd hex (by rw [same]; decide)
  have noFeed : '\n' ∉ digits := fun member => absurd (allHex _ member) (by decide)
  have moreCrlf : ((crlf (digits ++ after)).take 5).takeWhile isHexDigit = digits := by
    rw [Text.takeWhile_take_crlf (by decide) (by decide), more]
  have left : (crlf (digits ++ after)).drop digits.length = crlf after := by
    rw [crlf_append, crlf_of_notMem noFeed, List.drop_left]
  refine ⟨c :: digits, after, charOfCodePoint ((Text.hexNumber? (c :: digits)).getD 0), rfl,
    List.forall_mem_cons.mpr ⟨hex, allHex⟩, ?_, ?_, ?_⟩
  · have bound := ( List.takeWhile_prefix isHexDigit (l := (digits ++ after).take 5)).length_le
    rw [more, List.length_take] at bound
    rw [List.length_cons]
    omega
  · simp only [takeEscape, if_pos hex, more, List.drop_left, afterDigits]
  · rw [crlf_cons notFeed]
    simp only [takeEscape, if_pos hex, moreCrlf, left, afterDigits]

/-- How an escape is taken of a text with carriage returns in front of its line feeds. -/
inductive EscapeRead (chars : List Char) : Prop
  /-- It holds no line feed, and is taken alike. -/
  | kept (taken : List Char) (whole : chars = taken ++ (takeEscape chars).2) (plain : '\n' ∉ taken)
      (same : takeEscape (crlf chars) = ((takeEscape chars).1, crlf (takeEscape chars).2))
  /-- It ends with a line feed behind its digits, which is left. -/
  | parted (digits : List Char) (whole : chars = digits ++ '\n' :: (takeEscape chars).2)
      (plain : '\n' ∉ digits) (escape : EndsInEscape ('\\' :: digits))
      (same : takeEscape (crlf chars) = ((takeEscape chars).1, '\n' :: crlf (takeEscape chars).2))

/-- **An escape is taken alike, or a line feed stands behind its digits.** -/
theorem escapeRead (valid : startsEscape chars = true) : EscapeRead chars := by
  cases chars with
  | nil => exact .kept [] rfl List.not_mem_nil rfl
  | cons c rest =>
    have notFeed : c ≠ '\n' := by simpa using startsEscape_iff.mp valid
    by_cases hex : isHexDigit c = true
    · obtain ⟨digits, after, denoted, split, allHex, short, taken, crlfTaken⟩ :=
        takeEscape_hex hex rest
      have noFeed : '\n' ∉ digits := fun member => absurd (allHex _ member) (by decide)
      have stays (visible : ¬ after.head?.any isSpace = true) : EscapeRead (c :: rest) := by
        have visibleCrlf : ¬ (crlf after).head?.any isSpace = true := by
          rwa [any_head?_crlf (by decide)]
        refine .kept digits ?_ noFeed ?_
        · rw [taken, afterDigits, if_neg visible, split]
        · rw [taken, crlfTaken, afterDigits, afterDigits, if_neg visible, if_neg visibleCrlf]
      rcases after with _ | ⟨d, after⟩
      · exact stays (by simp)
      by_cases space : isSpace d = true
      · by_cases feed : d = '\n'
        · subst feed
          exact .parted digits (by rw [taken, split]; rfl) noFeed
            (Text.endsInEscape_digits allHex short) (by rw [taken, crlfTaken]; rfl)
        · have spaceHere (more : List Char) : afterDigits (d :: more) = more := if_pos space
          refine .kept (digits ++ [d]) ?_ ?_ ?_
          · rw [taken, spaceHere, split, List.append_assoc]
            rfl
          · simpa [Ne.symm feed] using noFeed
          · rw [taken, crlfTaken, crlf_cons feed, spaceHere, spaceHere]
      · exact stays space
    · refine .kept [c] ?_ (by simpa using Ne.symm notFeed) ?_
      · simp only [takeEscape, if_neg hex]
        rfl
      · rw [crlf_cons notFeed]
        simp only [takeEscape, if_neg hex]

/-! ### Names -/

theorem takeName_of_name {c : Char} (name : isNameChar c = true) (rest : List Char) :
    takeName (c :: rest) = (c :: (takeName rest).1, (takeName rest).2) := by
  rw [takeName, if_pos name]

theorem takeName_escape (valid : startsEscape chars = true) :
    takeName ('\\' :: chars) =
      ((takeEscape chars).1 :: (takeName (takeEscape chars).2).1,
        (takeName (takeEscape chars).2).2) := by
  rw [takeName, if_neg (by decide), if_pos (by rw [valid]; rfl)]

theorem takeName_stop {c : Char} (notName : ¬ isNameChar c = true) (plain : c ≠ '\\')
    (rest : List Char) : takeName (c :: rest) = ([], c :: rest) := by
  rw [takeName, if_neg notName, if_neg (by simp [plain])]

/-- A name is taken from its first character on, or nothing is taken. -/
theorem takeName_cases (chars : List Char) :
    takeName chars = ([], chars) ∨
      ∃ d taken, chars = d :: (taken ++ (takeName chars).2) ∧
        (isNameChar d = true ∨ d = '\\') ∧ (takeName chars).1 ≠ [] := by
  rw [takeName.eq_def]
  split
  · exact .inl rfl
  · next c rest =>
    split
    · next name =>
      obtain ⟨taken, whole⟩ := takeName_suffix rest
      exact .inr ⟨c, taken, by rw [whole], .inl name, List.cons_ne_nil _ _⟩
    · split
      · next escape =>
        obtain ⟨rfl, -⟩ : c = '\\' ∧ startsEscape rest = true := by simpa using escape
        obtain ⟨taken, whole⟩ := (takeName_suffix _).trans (takeEscape_suffix rest)
        exact .inr ⟨'\\', taken, by rw [whole], .inr rfl, List.cons_ne_nil _ _⟩
      · exact .inl rfl

/-- How a name is taken of a text with carriage returns in front of its line feeds. -/
inductive NameRead (chars : List Char) : Prop
  /-- It holds no line feed, and is taken alike. -/
  | kept (taken : List Char) (whole : chars = taken ++ (takeName chars).2) (plain : '\n' ∉ taken)
      (same : takeName (crlf chars) = ((takeName chars).1, crlf (takeName chars).2))
  /-- It ends with a line feed, which is left. -/
  | parted (front : List Char) (whole : chars = front ++ '\n' :: (takeName chars).2)
      (plain : '\n' ∉ front) (escape : EndsInEscape front)
      (same : takeName (crlf chars) = ((takeName chars).1, '\n' :: crlf (takeName chars).2))
  /-- It goes on behind a line feed, and is cut there. -/
  | cut (front : List Char) (d : Char) (back : List Char)
      (whole : chars = front ++ '\n' :: d :: (back ++ (takeName chars).2))
      (escape : EndsInEscape front) (visible : isSpace d = false) (notClosing : d ≠ ')')
      (other : (takeName (crlf chars)).1 ≠ (takeName chars).1)
      (breaks : (takeName (crlf chars)).2.head? = some '\n')

theorem isNameChar_or_backslash {d : Char} (named : isNameChar d = true ∨ d = '\\') :
    isSpace d = false ∧ d ≠ ')' := by
  rcases named with name | rfl
  · exact ⟨isSpace_of_isNameChar name, fun same => absurd name (by rw [same]; decide)⟩
  · exact ⟨by decide, by decide⟩

/-- A name that goes on with the name behind some of its characters is taken as that one is. -/
theorem NameRead.append {rest : List Char} {first : Char} (read : NameRead rest) (front : List Char)
    (split : chars = front ++ rest) (plain : '\n' ∉ front)
    (taken : takeName chars = (first :: (takeName rest).1, (takeName rest).2))
    (crlfTaken : takeName (crlf chars) =
      (first :: (takeName (crlf rest)).1, (takeName (crlf rest)).2)) :
    NameRead chars := by
  cases read with
  | kept inside whole plainInside same =>
    refine .kept (front ++ inside) ?_ ?_ ?_
    · rw [taken, split, List.append_assoc, ← whole]
    · simpa [plain] using plainInside
    · rw [crlfTaken, taken, same]
  | parted inside whole plainInside escape same =>
    refine .parted (front ++ inside) ?_ ?_ (escape.append front) ?_
    · rw [taken, split, List.append_assoc, ← whole]
    · simpa [plain] using plainInside
    · rw [crlfTaken, taken, same]
  | cut inside d back whole escape visible notClosing other breaks =>
    refine .cut (front ++ inside) d back ?_ (escape.append front) visible notClosing ?_ ?_
    · rw [taken, split, List.append_assoc, ← whole]
    · rw [crlfTaken, taken]
      exact fun same => other (List.cons.inj same).2
    · rw [crlfTaken]
      exact breaks

/-- A name ends with the line feed behind its first escape, or is cut there. -/
theorem NameRead.of_parted {digits after : List Char} {first : Char}
    (split : chars = digits ++ '\n' :: after) (plain : '\n' ∉ digits)
    (escape : EndsInEscape digits)
    (taken : takeName chars = (first :: (takeName after).1, (takeName after).2))
    (crlfTaken : takeName (crlf chars) = ([first], '\n' :: crlf after)) : NameRead chars := by
  rcases takeName_cases after with nothing | ⟨d, back, whole, named, some⟩
  · rw [nothing] at taken
    refine .parted digits ?_ plain escape ?_
    · rw [taken, ← split]
    · rw [crlfTaken, taken]
  · obtain ⟨visible, notClosing⟩ := isNameChar_or_backslash named
    refine .cut digits d back ?_ escape visible notClosing ?_ ?_
    · rw [taken, ← whole, ← split]
    · rw [crlfTaken, taken]
      exact fun same => some (List.cons.inj same).2.symm
    · rw [crlfTaken]
      rfl

/-- **A name is taken alike, or a line feed stands behind one of its escapes**, unless a backslash
and a line feed follow it. -/
theorem nameRead (boundary : ¬ ['\\', '\n'] <+: (takeName chars).2) : NameRead chars := by
  fun_induction takeName chars with
  | case1 => exact .kept [] (by simp [takeName]) List.not_mem_nil (by simp [takeName])
  | case2 c rest name named after taken ih =>
    rw [taken] at ih
    have notFeed : c ≠ '\n' := fun same => absurd name (by rw [same]; decide)
    refine (ih boundary).append [c] rfl (by simpa using notFeed.symm)
      (takeName_of_name name rest) ?_
    rw [crlf_cons notFeed, takeName_of_name name]
  | case3 c rest _ escape escaped named after taken ih =>
    obtain ⟨rfl, valid⟩ : c = '\\' ∧ startsEscape rest = true := by simpa using escape
    rw [taken] at ih
    have takenHere := takeName_escape valid
    have crlfTaken : takeName (crlf ('\\' :: rest)) = _ := takeName_escape (startsEscape_crlf rest)
    rcases escapeRead valid with ⟨front, split, plain, same⟩ | ⟨digits, split, plain, escape, same⟩
    · rw [same] at crlfTaken
      refine (ih boundary).append ('\\' :: front) ?_ ?_ takenHere crlfTaken
      · rw [List.cons_append, ← split]
      · simpa using plain
    · rw [same, takeName_stop (by decide) (by decide)] at crlfTaken
      refine .of_parted ?_ ?_ escape takenHere crlfTaken
      · rw [List.cons_append, ← split]
      · simpa using plain
  | case4 c rest notName notEscape =>
    have plain : c = '\\' → rest.head? ≠ Option.some '\n' := by
      rintro rfl first
      obtain ⟨more, rfl⟩ := List.head?_eq_some_iff.mp first
      exact boundary ⟨more, rfl⟩
    have notBackslash : c ≠ '\\' := fun same =>
      notEscape (by rw [same, startsEscape_iff.mpr (plain same)]; rfl)
    have stops := takeName_stop notName notBackslash
    refine .kept [] (by rw [stops]; rfl) List.not_mem_nil ?_
    rw [stops]
    by_cases feed : c = '\n'
    · subst feed
      exact takeName_stop (by decide) (by decide) _
    · rw [crlf_cons feed]
      exact stops _

/-! ### Where names and numbers start -/

theorem startsEscape_of_boundary (boundary : ¬ ['\\', '\n'] <+: '\\' :: chars) :
    startsEscape chars = true := by
  rw [startsEscape_iff]
  intro first
  obtain ⟨more, rfl⟩ := List.head?_eq_some_iff.mp first
  exact boundary ⟨more, rfl⟩

/-- A name starts in both texts or in none, unless a backslash and a line feed stand there. -/
theorem startsName_crlf (boundary : ¬ ['\\', '\n'] <+: chars)
    (hyphened : ¬ ['-', '\\', '\n'] <+: chars) : startsName (crlf chars) = startsName chars := by
  rcases chars with _ | ⟨c, rest⟩
  · rfl
  by_cases feed : c = '\n'
  · subst feed
    rfl
  rw [crlf_cons feed]
  by_cases escape : c = '\\'
  · subst escape
    show startsEscape (crlf rest) = startsEscape rest
    rw [startsEscape_crlf, startsEscape_of_boundary boundary]
  by_cases hyphen : c = '-'
  · subst hyphen
    rcases rest with _ | ⟨d, more⟩
    · rfl
    by_cases feed : d = '\n'
    · subst feed
      rfl
    rw [crlf_cons feed]
    by_cases escape : d = '\\'
    · subst escape
      have lone : ¬ ['\\', '\n'] <+: '\\' :: more := fun starts =>
        hyphened (List.cons_prefix_cons.mpr ⟨rfl, starts⟩)
      simp only [startsName, startsEscape_crlf, startsEscape_of_boundary lone]
    · have other : (d == '\\') = false := beq_eq_false_iff_ne.mpr escape
      simp only [startsName, other, Bool.false_and]
  · rw [startsName_cons hyphen escape, startsName_cons hyphen escape]

theorem startsName_crlf_of (starts : startsName chars = true) : startsName (crlf chars) = true := by
  rw [startsName_crlf, starts]
  · rintro ⟨rest, rfl⟩
    cases starts
  · rintro ⟨rest, rfl⟩
    cases starts

theorem startsUnsigned_crlf (chars : List Char) :
    startsUnsigned (crlf chars) = startsUnsigned chars := by
  cases chars with
  | nil => rfl
  | cons c rest =>
    by_cases feed : c = '\n'
    · subst feed
      rfl
    · rw [crlf_cons feed, startsUnsigned, startsUnsigned, any_head?_crlf (by decide)]

theorem startsNumber_crlf (chars : List Char) : startsNumber (crlf chars) = startsNumber chars := by
  cases chars with
  | nil => rfl
  | cons c rest =>
    have unsigned := startsUnsigned_crlf (c :: rest)
    by_cases feed : c = '\n'
    · subst feed
      rfl
    · rw [crlf_cons feed] at unsigned ⊢
      rw [startsNumber, startsNumber, startsUnsigned_crlf, unsigned]

end Css.Scan

end PagedHtml
