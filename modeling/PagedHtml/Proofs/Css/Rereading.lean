/-
**Lexemes read again, by the text behind them.**

What follows a token in a text may go on with it: a digit with a number, a parenthesis with a name,
an asterisk with a slash. `Token.EndsBefore` tells kind by kind which texts do not.

* `Token.IsLexeme.takes`: before a text that does not go on with it a lexeme is taken just as it is
  written;
* `Token.IsLexeme.endsBefore`: before any other text it is not.

The two rest on one equivalence for each kind of token, between the token that the lexer takes and
the text behind it (`Lexer.tokenAt_ident_iff` and its companions).
-/

import PagedHtml.Proofs.Css.Lexeme

namespace PagedHtml.Css

open Text (isSpace)
open Number (Literal)
open Scan

/-! ### The text behind a token -/

/-- That a character starts something longer than itself before these characters. -/
def StartsLonger (c : Char) (rest : List Char) : Prop :=
  (c = '#' ∧ ∃ next ∈ rest.head?, isNameChar next = true) ∨ startsNumber (c :: rest) = true ∨
    startsName (c :: rest) = true ∨ (c = '@' ∧ startsName rest = true) ∨
    (c = '-' ∧ rest.take 2 = ['-', '>']) ∨ (c = '<' ∧ rest.take 3 = ['!', '-', '-']) ∨
    (c = '/' ∧ rest.head? = some '*')

/-- **That the text behind a token does not go on with it.** What is written with no digits for a
number, and a string that holds the quote it is written in, do not end before any text. -/
def Token.EndsBefore (rest : List Char) : Token → Prop
  | ident name => (∀ c ∈ rest.head?, isNameChar c = false ∧ c ≠ '(') ∧
      ¬ (name = "--" ∧ rest.head? = some '>')
  | function name => Text.equalsIgnoringCase name "url" = true →
      rest.head? = some '"' ∨ rest.head? = some '\''
  | atKeyword _ | hash _ => ∀ c ∈ rest.head?, isNameChar c = false
  | string text => '"' ∉ text.toList
  | delim c => ¬ StartsLonger c rest
  | number n => n.IsWritable ∧ n.literal.EndsBefore rest ∧ startsName rest = false ∧
      rest.head? ≠ some '%'
  | percentage n => n.IsWritable
  | dimension n unit => n.IsWritable ∧ n.literal.EndsBefore (unit.toList ++ rest) ∧
      ∀ c ∈ rest.head?, isNameChar c = false
  | whitespace => ∀ c ∈ rest.head?, isSpace c = false
  | badString | badUrl | endOfFile => False
  | url _ | commentOpen | commentClose | colon | semicolon | comma | leftBracket | rightBracket
  | leftParen | rightParen | leftBrace | rightBrace => True

/-- A token as it is read from its text. -/
def Token.reread : Token → Token
  | number n => number n.reread
  | percentage n => percentage n.reread
  | dimension n unit => dimension n.reread unit
  | token => token

/-- **The same token**: of the same kind, with the same name or text, and with an equal number. -/
inductive Token.Same : Token → Token → Prop
  | refl {token : Token} : Same token token
  | number {n m : Numeral} : n.value.equals m.value = true → Same (.number n) (.number m)
  | percentage {n m : Numeral} : n.value.equals m.value = true →
      Same (.percentage n) (.percentage m)
  | dimension {n m : Numeral} {unit : String} : n.value.equals m.value = true →
      Same (.dimension n unit) (.dimension m unit)

/-- That the lexer takes a token from just these characters, which start no comment. -/
def Lexer.Takes (text : List Char) (token : Token) (rest : List Char) : Prop :=
  ∃ c tail, text = c :: tail ∧ skipComments? (c :: (tail ++ rest)) = some (c :: (tail ++ rest)) ∧
    tokenAt c (tail ++ rest) = ⟨token, none, rest⟩

namespace Lexer

variable {c : Char} {chars rest : List Char}

/-- The characters that start a token of their own kind. -/
def special : List Char := "(),:;[]\x7b\x7d\t\n\x0C\r \"'#<@".toList

/-- The token at a character that is nothing special. -/
theorem tokenAt_of_notMem (ordinary : c ∉ special) (rest : List Char) :
    tokenAt c rest =
      if startsNumber (c :: rest) = true then numericToken (c :: rest)
      else if c = '-' ∧ rest.take 2 = ['-', '>'] then ⟨.commentClose, none, rest.drop 2⟩
      else if startsName (c :: rest) = true then namedToken (c :: rest)
      else ⟨.delim c, none, rest⟩ := by
  have differs {d : Char} (member : d ∈ special) : c ≠ d := by
    rintro rfl
    exact ordinary member
  have punctuation : punctuation? c = none := by
    unfold punctuation?
    split <;> first | rfl | exact absurd rfl (differs (by decide))
  have space : isSpace c = false := by
    simp [isSpace, differs (by decide : '\t' ∈ special), differs (by decide : '\n' ∈ special),
      differs (by decide : '\x0C' ∈ special), differs (by decide : '\r' ∈ special),
      differs (by decide : ' ' ∈ special)]
  simp [tokenAt, punctuation, space, differs (by decide : '"' ∈ special),
    differs (by decide : '\'' ∈ special), differs (by decide : '#' ∈ special),
    differs (by decide : '<' ∈ special), differs (by decide : '@' ∈ special)]

/-! ### Names before other text -/

theorem notMem_special_of_startsName (starts : startsName (c :: rest) = true) : c ∉ special := by
  have plain : ∀ d ∈ special, ¬ (isNameStart d = true ∨ d = '\\' ∨ d = '-') := by decide
  intro member
  refine plain c member ?_
  exact (head_of_startsName starts).imp_right (Or.imp_right And.left)

/-- A name and what follows make up the end of an HTML comment just if the name is two hyphens. -/
theorem closes_append_iff (name : IsName (c :: chars)) :
    (c = '-' ∧ (chars ++ rest).take 2 = ['-', '>']) ↔
      c :: chars = ['-', '-'] ∧ rest.head? = some '>' := by
  have notName : isNameChar '>' = false := by decide
  have names := name.2
  match chars with
  | [] =>
    have starts := name.1
    constructor
    · rintro ⟨rfl, -⟩
      exact absurd starts (by decide)
    · rintro ⟨same, -⟩
      cases same
  | [d] =>
    cases rest <;> simp [and_assoc]
  | d :: e :: more =>
    have other : e ≠ '>' := by
      rintro rfl
      rw [names '>' (by simp)] at notName
      cases notName
    simp [other]

theorem tokenAt_name (name : IsName (c :: chars)) (rest : List Char) :
    tokenAt c (chars ++ rest) =
      if c :: chars = ['-', '-'] ∧ rest.head? = some '>' then
        ⟨.commentClose, none, (chars ++ rest).drop 2⟩
      else namedToken (c :: chars ++ rest) := by
  have number := name.startsNumber_append rest
  have starts := name.startsName_append rest
  rw [List.cons_append] at number starts
  rw [tokenAt_of_notMem (notMem_special_of_startsName name.1), number, starts]
  simp only [closes_append_iff name, Bool.false_eq_true, if_false, if_true, List.cons_append]

/-- The token of a name before other text, by what follows the characters of names. -/
theorem namedToken_append_names (names : ∀ c ∈ chars, isNameChar c = true) (plain : '\\' ∉ rest) :
    namedToken (chars ++ rest) =
      let name := String.ofList (chars ++ rest.takeWhile isNameChar)
      let after := rest.dropWhile isNameChar
      if after.head? = some '(' then
        if Text.equalsIgnoringCase name "url" then
          let argument := after.tail.dropWhile isSpace
          if argument.head? = some '"' ∨ argument.head? = some '\'' then
            ⟨.function name, none, argument⟩
          else addressToken argument
        else ⟨.function name, none, after.tail⟩
      else ⟨.ident name, none, after⟩ := by
  rw [namedToken_eq, takeName_append_names names plain]

theorem addressToken_token (chars : List Char) :
    (addressToken chars).token = .badUrl ∨ ∃ text, (addressToken chars).token = .url text := by
  simp only [addressToken]
  split
  · exact .inr ⟨_, rfl⟩
  · exact .inl rfl
  · exact .inr ⟨_, rfl⟩

/-- A name is taken as an identifier just if what follows does not go on with it. -/
theorem tokenAt_ident_iff (name : IsName (c :: chars)) (plain : '\\' ∉ rest) :
    tokenAt c (chars ++ rest) = ⟨.ident (String.ofList (c :: chars)), none, rest⟩ ↔
      Token.EndsBefore rest (.ident (String.ofList (c :: chars))) := by
  have hyphens : String.ofList (c :: chars) = "--" ↔ c :: chars = ['-', '-'] := by
    rw [← String.toList_inj, String.toList_ofList]
    rfl
  rw [tokenAt_name name, namedToken_append_names name.2 plain, Token.EndsBefore, hyphens]
  constructor
  · intro taken
    split at taken
    · cases taken
    · next open_ =>
      refine ⟨?_, open_⟩
      simp only at taken
      split_ifs at taken with opens
      · cases taken
      · rcases addressToken_token ((rest.dropWhile isNameChar).tail.dropWhile isSpace) with
          token | ⟨text, token⟩ <;>
        · rw [taken] at token
          cases token
      · cases taken
      · have same : rest.dropWhile isNameChar = rest := congrArg Step.rest taken
        rw [same] at opens
        exact fun d first =>
          ⟨head?_of_dropWhile_eq same d first, fun paren => opens (paren ▸ first)⟩
  · rintro ⟨stops, open_⟩
    obtain ⟨none, same⟩ := takeWhile_eq_nil fun d first => (stops d first).1
    have opens : rest.head? ≠ some '(' := fun first => (stops '(' first).2 rfl
    simp only [if_neg open_, none, same, List.append_nil, if_neg opens]

/-- A name and a parenthesis are taken as the start of a function unless they start an address. -/
theorem tokenAt_function_iff (name : IsName (c :: chars)) (plain : '\\' ∉ rest) :
    tokenAt c (chars ++ '(' :: rest) = ⟨.function (String.ofList (c :: chars)), none, rest⟩ ↔
      Token.EndsBefore rest (.function (String.ofList (c :: chars))) := by
  have notName : isNameChar '(' = false := by decide
  have plainHere : '\\' ∉ '(' :: rest := by simpa using plain
  have named := namedToken_append_names name.2 plainHere
  simp only [List.takeWhile_cons_of_neg (by simp [notName] : ¬ isNameChar '(' = true),
    List.dropWhile_cons_of_neg (by simp [notName] : ¬ isNameChar '(' = true), List.append_nil,
    List.head?_cons, if_true, List.tail_cons] at named
  rw [tokenAt_name name, if_neg (by simp), named, Token.EndsBefore]
  split
  · next address =>
    simp only [address, true_implies]
    constructor
    · intro taken
      split at taken
      · next quoted =>
        have same : rest.dropWhile isSpace = rest := congrArg Step.rest taken
        rwa [same] at quoted
      · rcases addressToken_token (rest.dropWhile isSpace) with token | ⟨text, token⟩ <;>
        · rw [taken] at token
          cases token
    · intro quoted
      have stops : ∀ c ∈ rest.head?, isSpace c = false := by
        rcases quoted with quote | quote <;>
        · rintro c first
          rw [quote] at first
          cases first
          decide
      rw [(takeWhile_eq_nil stops).2, if_pos quoted]
  · next other => exact ⟨fun _ address => absurd address other, fun _ => rfl⟩

theorem tokenAt_atSign (starts : startsName chars = true) :
    tokenAt '@' chars =
      ⟨.atKeyword (String.ofList (takeName chars).1), none, (takeName chars).2⟩ := by
  have notNumber : startsNumber ('@' :: chars) = false := rfl
  simp [tokenAt, punctuation?, notNumber, starts, (by decide : isSpace '@' = false)]

/-- A name behind an at-sign is taken just if what follows does not go on with it. -/
theorem tokenAt_atKeyword_iff (name : IsName chars) (plain : '\\' ∉ rest) :
    tokenAt '@' (chars ++ rest) = ⟨.atKeyword (String.ofList chars), none, rest⟩ ↔
      ∀ c ∈ rest.head?, isNameChar c = false := by
  rw [tokenAt_atSign (name.startsName_append rest), takeName_append_names name.2 plain]
  constructor
  · exact fun taken => head?_of_dropWhile_eq (congrArg Step.rest taken)
  · intro stops
    obtain ⟨none, same⟩ := takeWhile_eq_nil stops
    rw [none, same, List.append_nil]

/-- A name behind a number sign is taken just if what follows does not go on with it. -/
theorem tokenAt_hash_iff (nonempty : chars ≠ []) (names : ∀ c ∈ chars, isNameChar c = true)
    (plain : '\\' ∉ rest) :
    tokenAt '#' (chars ++ rest) = ⟨.hash (String.ofList chars), none, rest⟩ ↔
      ∀ c ∈ rest.head?, isNameChar c = false := by
  have named : (chars ++ rest).head?.any isNameChar = true := by
    cases chars with
    | nil => exact absurd rfl nonempty
    | cons c more => exact names c List.mem_cons_self
  have hash : tokenAt '#' (chars ++ rest) = hashToken (chars ++ rest) := rfl
  rw [hash, hashToken, named]
  simp only [Bool.true_or, if_true, takeName_append_names names plain]
  constructor
  · exact fun taken => head?_of_dropWhile_eq (congrArg Step.rest taken)
  · intro stops
    obtain ⟨none, same⟩ := takeWhile_eq_nil stops
    rw [none, same, List.append_nil]

/-! ### Strings and addresses before other text -/

/-- Text in quotes is taken up to the first quote. -/
theorem takeString_quoted (plain : ∀ c ∈ chars, c ≠ '\n' ∧ c ≠ '\\') {quote : Char}
    (without : quote ∉ chars) (escape : quote ≠ '\\') (rest : List Char) :
    takeString quote (chars ++ quote :: rest) = ⟨chars, .closed, rest⟩ := by
  induction chars with
  | nil => rw [List.nil_append, takeString_cons quote escape, if_pos rfl]
  | cons c more ih =>
    obtain ⟨⟨notBreak, notEscape⟩, later⟩ := List.forall_mem_cons.mp plain
    obtain ⟨other, without⟩ := not_or.mp (mt List.mem_cons.mpr without)
    rw [List.cons_append, takeString_cons quote notEscape, if_neg (Ne.symm other),
      if_neg notBreak, ih later without]
    rfl

/-- A string is taken to its end just if it does not hold its quote. -/
theorem tokenAt_string_iff (rest : List Char) (plain : ∀ c ∈ chars, c ≠ '\n' ∧ c ≠ '\\') :
    tokenAt '"' (chars ++ '"' :: rest) = ⟨.string (String.ofList chars), none, rest⟩ ↔
      '"' ∉ chars := by
  have string (more : List Char) : tokenAt '"' more = stringToken '"' more := rfl
  have escape : '"' ≠ '\\' := by decide
  rw [string]
  constructor
  · intro taken member
    obtain ⟨first, later, rfl, without⟩ := List.eq_append_cons_of_mem member
    have plainFirst : ∀ c ∈ first, c ≠ '\n' ∧ c ≠ '\\' :=
      fun c inside => plain c (List.mem_append_left _ inside)
    rw [List.append_assoc, List.cons_append, stringToken,
      takeString_quoted plainFirst without escape] at taken
    have length := congrArg (fun step => step.rest.length) taken
    simp only [List.length_append, List.length_cons] at length
    omega
  · intro without
    rw [stringToken, takeString_quoted plain without escape]

/-- The text of an address is taken up to its parenthesis. -/
theorem takeAddress_closed
    (plain : ∀ c ∈ chars, isSpace c = false ∧ c ≠ '"' ∧ c ≠ '\'' ∧ c ≠ '(' ∧ c ≠ ')' ∧ c ≠ '\\')
    (rest : List Char) : takeAddress (chars ++ ')' :: rest) = ⟨chars, .closed, rest⟩ := by
  induction chars with
  | nil => rw [List.nil_append, takeAddress, if_pos rfl]
  | cons c more ih =>
    obtain ⟨⟨space, double, single, opening, closing, escape⟩, later⟩ :=
      List.forall_mem_cons.mp plain
    rw [List.cons_append, takeAddress, if_neg closing, space, ih later]
    simp [double, single, opening, escape, Quotation.cons]

/-- An address is taken to its end. -/
theorem tokenAt_url
    (plain : ∀ c ∈ chars, isSpace c = false ∧ c ≠ '"' ∧ c ≠ '\'' ∧ c ≠ '(' ∧ c ≠ ')' ∧ c ≠ '\\')
    (plainRest : '\\' ∉ rest) :
    tokenAt 'u' ('r' :: 'l' :: '(' :: (chars ++ ')' :: rest)) =
      ⟨.url (String.ofList chars), none, rest⟩ := by
  have name : IsName ['u', 'r', 'l'] := ⟨rfl, by decide⟩
  have notEscape : '\\' ∉ chars := fun member => (plain _ member).2.2.2.2.2 rfl
  have plainHere : '\\' ∉ '(' :: (chars ++ ')' :: rest) := by simp [notEscape, plainRest]
  have first : ∀ c ∈ (chars ++ ')' :: rest).head?,
      isSpace c = false ∧ c ≠ '"' ∧ c ≠ '\'' := by
    intro c first
    cases chars with
    | nil =>
      cases first
      decide
    | cons d more =>
      cases first
      obtain ⟨space, double, single, -⟩ := plain c List.mem_cons_self
      exact ⟨space, double, single⟩
  have argument := (takeWhile_eq_nil fun c inside => (first c inside).1).2
  have unquoted : ¬ ((chars ++ ')' :: rest).head? = some '"' ∨
      (chars ++ ')' :: rest).head? = some '\'') := by
    rintro (quote | quote)
    · exact (first _ quote).2.1 rfl
    · exact (first _ quote).2.2 rfl
  have named := namedToken_append_names name.2 plainHere
  have token := tokenAt_name name ('(' :: (chars ++ ')' :: rest))
  rw [if_neg (by simp), named] at token
  simp only [List.takeWhile_cons_of_neg (by decide : ¬ isNameChar '(' = true),
    List.dropWhile_cons_of_neg (by decide : ¬ isNameChar '(' = true), List.append_nil,
    List.head?_cons, if_true, List.tail_cons, argument, if_neg unquoted,
    (by decide : Text.equalsIgnoringCase (String.ofList ['u', 'r', 'l']) "url" = true),
    addressToken, takeAddress_closed plain rest] at token
  exact token

/-! ### Numbers before other text -/

/-- A token with a number. -/
def IsNumeric (token : Token) : Prop :=
  ∃ n, token = .number n ∨ token = .percentage n ∨ ∃ unit, token = .dimension n unit

/-- A token with a number stands only where a number starts. -/
theorem startsNumber_of_isNumeric (numeric : IsNumeric (tokenAt c rest).token) :
    startsNumber (c :: rest) = true := by
  obtain ⟨n, isOne⟩ := numeric
  unfold tokenAt at isOne
  split at isOne
  · next token punctuation =>
    unfold punctuation? at punctuation
    split at punctuation <;> cases punctuation <;> simp at isOne
  · split_ifs at isOne with space quote hash digits close opening keyword word
    · simp at isOne
    · simp only [stringToken] at isOne
      split at isOne <;> simp at isOne
    · simp only [hashToken] at isOne
      split at isOne <;> simp at isOne
    · exact digits
    · simp at isOne
    · simp at isOne
    · simp at isOne
    · rw [namedToken_eq] at isOne
      simp only at isOne
      split_ifs at isOne
      · simp at isOne
      · rcases addressToken_token
          ((takeName (c :: rest)).2.tail.dropWhile isSpace) with token | ⟨text, token⟩ <;>
        simp [token] at isOne
      · simp at isOne
      · simp at isOne
    · simp at isOne

/-- Where a number starts a number is read. -/
theorem tokenAt_of_startsNumber (starts : startsNumber (c :: rest) = true) :
    tokenAt c rest = numericToken (c :: rest) := by
  have ordinary : c ∉ special := by
    intro member
    have others : ∀ s ∈ special,
        (s == '+' || s == '-') = false ∧ s.isDigit = false ∧ (s == '.') = false := by decide
    obtain ⟨noSign, noDigit, noPoint⟩ := others c member
    rw [startsNumber, noSign, if_neg Bool.false_ne_true, startsUnsigned, noDigit, noPoint] at starts
    cases starts
  rw [tokenAt_of_notMem ordinary, if_pos starts]

/-- Where digits stand a number is read, behind a sign too. -/
theorem tokenAt_digits {sign : Option Char} {digits behind : List Char}
    (isSigned : Literal.IsSigned sign digits)
    (split : sign.toList ++ (digits ++ behind) = c :: rest) :
    tokenAt c rest = numericToken (c :: rest) := by
  obtain ⟨d, more, rfl⟩ := List.exists_cons_of_ne_nil isSigned.ne_nil
  have digit : d.isDigit = true := isSigned.isDigit d List.mem_cons_self
  refine tokenAt_of_startsNumber ?_
  cases sign with
  | some s =>
    obtain ⟨rfl, rfl⟩ := List.cons.inj split
    rcases isSigned.isSign s rfl with rfl | rfl <;> simp [startsNumber, startsUnsigned, digit]
  | none =>
    obtain ⟨rfl, -⟩ := List.cons.inj split
    obtain ⟨plus, minus⟩ := Literal.ne_sign_of_isDigit digit
    simp [startsNumber, startsUnsigned, digit, plus, minus]

section

variable {l : Literal}

/-- Where a positional literal stands a number is read. -/
theorem tokenAt_literal (positional : l.IsPositional) (split : l.text = c :: chars)
    (rest : List Char) : tokenAt c (chars ++ rest) = numericToken (l.text ++ rest) := by
  have whole : l.sign.toList ++ (l.whole ++ (Literal.fractionText l.fraction ++ rest)) =
      c :: (chars ++ rest) := by
    rw [← List.cons_append, ← split]
    simp [Literal.text, positional.exponent]
  rw [tokenAt_digits positional.isSigned whole, split]
  rfl

/-- What is taken as a number without a unit does not go on. -/
theorem endsBefore_of_number (positional : l.IsPositional) {n : Numeral}
    (taken : numericToken (l.text ++ rest) = ⟨.number n, none, rest⟩) :
    l.EndsBefore rest ∧ startsName rest = false ∧ rest.head? ≠ some '%' := by
  rw [numericToken_eq] at taken
  simp only at taken
  split_ifs at taken with unit percent
  · cases taken
  · cases taken
  · have same : (Literal.take (l.text ++ rest)).2 = rest := congrArg Step.rest taken
    rw [same] at unit percent
    exact ⟨(Literal.rest_take_text_iff positional).mp same, eq_false_of_ne_true unit, percent⟩

theorem numericToken_number (positional : l.IsPositional) (ends : l.EndsBefore rest)
    (unit : startsName rest = false) (percent : rest.head? ≠ some '%') :
    numericToken (l.text ++ rest) = ⟨.number ⟨l.value, l.integer?⟩, none, rest⟩ := by
  rw [numericToken_eq, Literal.take_of_endsBefore positional ends]
  simp [unit, percent]

/-- A percent sign ends every literal. -/
theorem numericToken_percentage (positional : l.IsPositional) (rest : List Char) :
    numericToken (l.text ++ '%' :: rest) = ⟨.percentage ⟨l.value, l.integer?⟩, none, rest⟩ := by
  have ends : l.EndsBefore ('%' :: rest) :=
    ⟨rfl, fun _ => rfl, by simp [Literal.takeExponent]⟩
  rw [numericToken_eq, Literal.take_of_endsBefore positional ends]
  rfl

theorem numericToken_dimension (positional : l.IsPositional) (unit : IsName chars)
    (ends : l.EndsBefore (chars ++ rest)) (stops : ∀ c ∈ rest.head?, isNameChar c = false)
    (plain : '\\' ∉ rest) :
    numericToken (l.text ++ (chars ++ rest)) =
      ⟨.dimension ⟨l.value, l.integer?⟩ (String.ofList chars), none, rest⟩ := by
  obtain ⟨none, same⟩ := takeWhile_eq_nil stops
  rw [numericToken_eq, Literal.take_of_endsBefore positional ends]
  simp [unit.startsName_append, takeName_append_names unit.2 plain, none, same]

/-- What is taken as a number with a unit is this number and this unit. -/
theorem endsBefore_of_dimension (positional : l.IsPositional) {n : Numeral}
    (plain : '\\' ∉ l.text ++ (chars ++ rest))
    (taken : numericToken (l.text ++ (chars ++ rest)) =
      ⟨.dimension n (String.ofList chars), none, rest⟩) :
    l.EndsBefore (chars ++ rest) ∧ ∀ c ∈ rest.head?, isNameChar c = false := by
  have suffix := Literal.take_suffix (l.text ++ (chars ++ rest))
  have same : (Literal.take (l.text ++ (chars ++ rest))).2 = chars ++ rest ↔ _ :=
    Literal.rest_take_text_iff positional
  rw [numericToken_eq] at taken
  generalize Literal.take (l.text ++ (chars ++ rest)) = all at taken suffix same
  obtain ⟨literal, after⟩ := all
  have plainAfter : '\\' ∉ after := mt (suffix.mem ·) plain
  simp only [takeName_eq plainAfter] at taken
  split_ifs at taken
  · have split := List.takeWhile_append_dropWhile (p := isNameChar) (l := after)
    simp only [Step.mk.injEq, Token.dimension.injEq, String.ofList_inj, true_and] at taken
    obtain ⟨⟨-, name⟩, left⟩ := taken
    rw [name, left] at split
    refine ⟨same.mp split.symm, ?_⟩
    exact left ▸ head?_dropWhile isNameChar after
  · cases taken
  · cases taken

end

/-! ### Single characters before other text -/

/-- A comment starts at a slash before an asterisk, and only there. -/
theorem skipComments?_eq_self_iff :
    skipComments? (c :: rest) = some (c :: rest) ↔ ¬ (c = '/' ∧ rest.head? = some '*') := by
  constructor
  · rintro skipped ⟨rfl, first⟩
    obtain ⟨more, rfl⟩ := List.head?_eq_some_iff.mp first
    rw [skipComments?] at skipped
    split at skipped
    · cases skipped
    · next after found =>
      have shorter := length_afterComment?_le found
      have bound := length_skipComments?_le skipped
      simp only [List.length_cons] at bound
      omega
  · intro none
    apply skipComments?_of_noComment
    rintro ⟨more, split⟩
    obtain ⟨rfl, rfl⟩ := List.cons.inj split
    exact none ⟨rfl, rfl⟩

theorem numericToken_ne_delim (chars rest : List Char) (c : Char) :
    numericToken chars ≠ ⟨.delim c, none, rest⟩ := by
  rw [numericToken_eq]
  simp only
  split_ifs <;> simp

theorem namedToken_ne_delim (chars rest : List Char) (c : Char) :
    namedToken chars ≠ ⟨.delim c, none, rest⟩ := by
  rw [namedToken_eq]
  simp only
  split_ifs
  · simp
  · intro same
    rcases addressToken_token ((takeName chars).2.tail.dropWhile isSpace) with
      token | ⟨text, token⟩ <;>
    · rw [same] at token
      cases token
  · simp
  · simp

/-- The token at a character that may stand for itself. -/
theorem tokenAt_of_isDelim (delim : IsDelim c) (rest : List Char) :
    tokenAt c rest =
      if c = '#' then hashToken rest
      else if startsNumber (c :: rest) = true then numericToken (c :: rest)
      else if c = '-' ∧ rest.take 2 = ['-', '>'] then ⟨.commentClose, none, rest.drop 2⟩
      else if c = '<' ∧ rest.take 3 = ['!', '-', '-'] then ⟨.commentOpen, none, rest.drop 3⟩
      else if c = '@' ∧ startsName rest = true then
        ⟨.atKeyword (String.ofList (takeName rest).1), none, (takeName rest).2⟩
      else if startsName (c :: rest) = true then namedToken (c :: rest)
      else ⟨.delim c, none, rest⟩ := by
  obtain ⟨punctuation, space, double, single, -⟩ := delim
  simp [tokenAt, punctuation, space, double, single]

/-- A number sign stands for itself just if no name follows. -/
theorem hashToken_eq_delim_iff (plain : '\\' ∉ rest) :
    hashToken rest = ⟨.delim '#', none, rest⟩ ↔
      ¬ ∃ next ∈ rest.head?, isNameChar next = true := by
  have noEscape : (rest.head? == some '\\') = false := by
    rw [beq_eq_false_iff_ne]
    exact fun first => plain (List.mem_of_head? first)
  have named : (rest.head?.any isNameChar || (rest.head? == some '\\' &&
      startsEscape (rest.drop 1))) = true ↔ ∃ next ∈ rest.head?, isNameChar next = true := by
    simp [noEscape, Option.any_eq_true]
  rw [hashToken, ← named]
  simp only
  split
  · next name => exact iff_of_false (fun same => by cases same) (not_not_intro name)
  · next unnamed => exact iff_of_true rfl unnamed

/-- A character stands for itself just if nothing longer starts there. -/
theorem tokenAt_delim_iff (delim : IsDelim c) (plain : '\\' ∉ rest) :
    (skipComments? (c :: rest) = some (c :: rest) ∧
        tokenAt c rest = ⟨.delim c, none, rest⟩) ↔ ¬ StartsLonger c rest := by
  rw [tokenAt_of_isDelim delim, skipComments?_eq_self_iff]
  constructor
  · rintro ⟨comment, taken⟩ longer
    split_ifs at taken with hash number close opening keyword word
    · subst hash
      have unnamed := (hashToken_eq_delim_iff plain).mp taken
      rcases longer with ⟨-, next⟩ | number | word | ⟨same, -⟩ | ⟨same, -⟩ | ⟨same, -⟩ | ⟨same, -⟩
      · exact unnamed next
      · cases number
      · cases word
      all_goals cases same
    · exact numericToken_ne_delim _ _ _ taken
    · cases taken
    · cases taken
    · cases taken
    · exact namedToken_ne_delim _ _ _ taken
    · rcases longer with ⟨same, -⟩ | number' | word' | at' | close' | open' | slash
      · exact hash same
      · exact number number'
      · exact word word'
      · exact keyword at'
      · exact close close'
      · exact opening open'
      · exact comment slash
  · intro alone
    simp only [StartsLonger, not_or] at alone
    obtain ⟨hash, number, word, keyword, close, opening, comment⟩ := alone
    refine ⟨comment, ?_⟩
    rw [if_neg number, if_neg close, if_neg opening, if_neg keyword, if_neg word]
    split
    · next same =>
      rw [same]
      exact (hashToken_eq_delim_iff plain).mpr fun next => hash ⟨same, next⟩
    · rfl

theorem Takes.of_ne (c : Char) (chars : List Char) {text : List Char} {token : Token}
    (split : text = c :: chars)
    (noSlash : c ≠ '/') (taken : tokenAt c (chars ++ rest) = ⟨token, none, rest⟩) :
    Takes text token rest :=
  ⟨c, chars, split, skipComments?_of_ne noSlash _, taken⟩

/-- What is taken from a text is the token at its first character. -/
theorem Takes.tokenAt_eq {text : List Char} {token : Token} (takes : Takes text token rest)
    (c : Char) (chars : List Char) (split : text = c :: chars) :
    tokenAt c (chars ++ rest) = ⟨token, none, rest⟩ := by
  obtain ⟨d, more, same, -, taken⟩ := takes
  obtain ⟨rfl, rfl⟩ := List.cons.inj (split.symm.trans same)
  exact taken

end Lexer

/-! ### Lexemes before other text -/

section

variable {rest : List Char} {token other : Token}

theorem IsName.exists_cons {name : String} (isName : IsName name.toList) :
    ∃ c chars, name.toList = c :: chars ∧ name = String.ofList (c :: chars) ∧
      IsName (c :: chars) ∧ c ≠ '/' := by
  obtain ⟨c, chars, split⟩ := List.exists_cons_of_ne_nil isName.ne_nil
  refine ⟨c, chars, split, ?_, split ▸ isName, ?_⟩
  · rw [← split, String.ofList_toList]
  · rintro rfl
    exact absurd (isName.2 '/' (split ▸ List.mem_cons_self)) (by decide)

/-- The text of a numeral starts with a sign or a digit. -/
theorem Numeral.exists_cons {n : Numeral} (writable : n.IsWritable) :
    ∃ c chars, n.css.toList = c :: chars ∧ n.literal.text = c :: chars ∧ c ≠ '/' := by
  have positional := n.isPositional_literal
  rw [← text_literal writable]
  obtain ⟨d, more, whole⟩ := List.exists_cons_of_ne_nil positional.whole_ne_nil
  have digit : d.isDigit = true := positional.isDigit_whole d (whole ▸ List.mem_cons_self)
  rw [Literal.text, whole]
  cases sign : n.literal.sign with
  | some minus =>
    obtain rfl := positional.sign minus sign
    exact ⟨_, _, rfl, rfl, by decide⟩
  | none =>
    refine ⟨_, _, rfl, rfl, ?_⟩
    rintro rfl
    exact absurd digit (by decide)

/-- **A lexeme is taken just as it is written before a text that does not go on with it.** -/
theorem Token.IsLexeme.takes (lexeme : token.IsLexeme) (plain : '\\' ∉ rest)
    (ends : token.EndsBefore rest) : Lexer.Takes token.css.toList token.reread rest := by
  cases token with
  | ident name =>
    obtain ⟨c, chars, split, rfl, isName, noSlash⟩ := IsName.exists_cons lexeme
    exact .of_ne c chars split noSlash ((Lexer.tokenAt_ident_iff isName plain).mpr ends)
  | function name =>
    obtain ⟨c, chars, split, rfl, isName, noSlash⟩ := IsName.exists_cons lexeme
    refine .of_ne c (chars ++ ['(']) ?_ noSlash ?_
    · simp [Token.css]
    · rw [List.append_assoc]
      exact (Lexer.tokenAt_function_iff isName plain).mpr ends
  | atKeyword name =>
    refine .of_ne '@' name.toList ?_ (by decide) ?_
    · simp [Token.css]
    · have taken := (Lexer.tokenAt_atKeyword_iff lexeme plain).mpr ends
      rwa [String.ofList_toList] at taken
  | hash name =>
    refine .of_ne '#' name.toList ?_ (by decide) ?_
    · simp [Token.css]
    · have taken := (Lexer.tokenAt_hash_iff lexeme.1 lexeme.2 plain).mpr ends
      rwa [String.ofList_toList] at taken
  | string text =>
    refine .of_ne '"' (text.toList ++ ['"']) ?_ (by decide) ?_
    · simp [Token.css]
    · have taken := (Lexer.tokenAt_string_iff rest lexeme).mpr ends
      rwa [String.ofList_toList, ← List.singleton_append, ← List.append_assoc] at taken
  | url text =>
    refine .of_ne 'u' ('r' :: 'l' :: '(' :: (text.toList ++ [')'])) ?_ (by decide) ?_
    · simp [Token.css]
    · have taken := Lexer.tokenAt_url lexeme plain
      rw [String.ofList_toList] at taken
      simpa [Token.reread] using taken
  | delim c =>
    exact ⟨c, [], by simp [Token.css], (Lexer.tokenAt_delim_iff lexeme plain).mpr ends⟩
  | number n =>
    obtain ⟨writable, stops, unit, percent⟩ := ends
    obtain ⟨c, chars, written, split, noSlash⟩ := Numeral.exists_cons writable
    refine .of_ne c chars written noSlash ?_
    rw [Lexer.tokenAt_literal n.isPositional_literal split]
    exact Lexer.numericToken_number n.isPositional_literal stops unit percent
  | percentage n =>
    obtain ⟨c, chars, written, split, noSlash⟩ := Numeral.exists_cons ends
    refine .of_ne c (chars ++ ['%']) (by simp [Token.css, written]) noSlash ?_
    rw [List.append_assoc, Lexer.tokenAt_literal n.isPositional_literal split]
    exact Lexer.numericToken_percentage n.isPositional_literal rest
  | dimension n unit =>
    obtain ⟨writable, stops, more⟩ := ends
    obtain ⟨c, chars, written, split, noSlash⟩ := Numeral.exists_cons writable
    refine .of_ne c (chars ++ unit.toList) (by simp [Token.css, written]) noSlash ?_
    rw [List.append_assoc, Lexer.tokenAt_literal n.isPositional_literal split,
      Lexer.numericToken_dimension n.isPositional_literal lexeme.2 stops more plain,
      String.ofList_toList]
    rfl
  | whitespace =>
    refine .of_ne ' ' [] rfl (by decide) ?_
    have space : Lexer.tokenAt ' ' rest = ⟨.whitespace, none, rest.dropWhile isSpace⟩ := rfl
    rw [List.nil_append, space, (takeWhile_eq_nil ends).2]
    rfl
  | commentOpen => exact .of_ne _ ['!', '-', '-'] rfl (by decide) rfl
  | commentClose => exact .of_ne _ ['-', '>'] rfl (by decide) rfl
  | colon | semicolon | comma | leftBracket | rightBracket | leftParen | rightParen | leftBrace
    | rightBrace => exact .of_ne _ [] rfl (by decide) rfl
  | badString | badUrl | endOfFile => exact lexeme.elim

/-- What starts with a number has a numeral that is written with digits. -/
theorem Numeral.isWritable_of_startsNumber {n : Numeral}
    (starts : startsNumber (n.css.toList ++ rest) = true) : n.IsWritable := by
  by_contra word
  have member := css_of_not_isWritable word
  simp only [List.mem_cons, List.not_mem_nil, or_false] at member
  rcases member with same | same | same <;> rw [same] at starts <;> cases starts

theorem Numeral.isWritable_of_takes {n : Numeral} (behind : List Char)
    (takes : Lexer.Takes (n.css.toList ++ behind) token rest) (numeric : Lexer.IsNumeric token) :
    n.IsWritable := by
  obtain ⟨c, chars, split, -, taken⟩ := takes
  have starts : startsNumber (c :: (chars ++ rest)) = true :=
    Lexer.startsNumber_of_isNumeric (by rwa [taken])
  rw [← List.cons_append, ← split, List.append_assoc] at starts
  exact isWritable_of_startsNumber starts

/-- **Before a text that goes on with it a lexeme is not taken as it is written.** -/
theorem Token.IsLexeme.endsBefore (lexeme : token.IsLexeme) (plain : '\\' ∉ rest)
    (same : other.Same token) (takes : Lexer.Takes token.css.toList other rest) :
    token.EndsBefore rest := by
  cases token with
  | ident name =>
    cases same
    obtain ⟨c, chars, split, rfl, isName, -⟩ := IsName.exists_cons lexeme
    exact (Lexer.tokenAt_ident_iff isName plain).mp (takes.tokenAt_eq c chars split)
  | function name =>
    cases same
    obtain ⟨c, chars, split, rfl, isName, -⟩ := IsName.exists_cons lexeme
    have taken := takes.tokenAt_eq c (chars ++ ['(']) (by simp [Token.css])
    rw [List.append_assoc] at taken
    exact (Lexer.tokenAt_function_iff isName plain).mp taken
  | atKeyword name =>
    cases same
    have taken := takes.tokenAt_eq '@' name.toList (by simp [Token.css])
    rw [← String.ofList_toList (s := name), String.toList_ofList] at taken
    exact (Lexer.tokenAt_atKeyword_iff lexeme plain).mp taken
  | hash name =>
    cases same
    have taken := takes.tokenAt_eq '#' name.toList (by simp [Token.css])
    rw [← String.ofList_toList (s := name), String.toList_ofList] at taken
    exact (Lexer.tokenAt_hash_iff lexeme.1 lexeme.2 plain).mp taken
  | string text =>
    cases same
    have taken := takes.tokenAt_eq '"' (text.toList ++ ['"']) (by simp [Token.css])
    rw [← String.ofList_toList (s := text), String.toList_ofList, List.append_assoc] at taken
    exact (Lexer.tokenAt_string_iff rest lexeme).mp taken
  | delim c =>
    cases same
    obtain ⟨d, chars, split, skipped, taken⟩ := takes
    obtain ⟨rfl, rfl⟩ : c = d ∧ [] = chars := by simpa [Token.css] using split
    exact (Lexer.tokenAt_delim_iff lexeme plain).mp ⟨skipped, taken⟩
  | number n =>
    obtain ⟨m, rfl⟩ : ∃ m, other = .number m := by cases same <;> exact ⟨_, rfl⟩
    have writable := Numeral.isWritable_of_takes [] (by simpa [Token.css] using takes)
      ⟨m, .inl rfl⟩
    obtain ⟨c, chars, written, split, -⟩ := Numeral.exists_cons writable
    have taken := takes.tokenAt_eq c chars written
    rw [Lexer.tokenAt_literal n.isPositional_literal split] at taken
    exact ⟨writable, Lexer.endsBefore_of_number n.isPositional_literal taken⟩
  | percentage n =>
    obtain ⟨m, rfl⟩ : ∃ m, other = .percentage m := by cases same <;> exact ⟨_, rfl⟩
    exact Numeral.isWritable_of_takes ['%'] (by simpa [Token.css] using takes)
      ⟨m, .inr (.inl rfl)⟩
  | dimension n unit =>
    obtain ⟨m, rfl⟩ : ∃ m, other = .dimension m unit := by cases same <;> exact ⟨_, rfl⟩
    have writable := Numeral.isWritable_of_takes unit.toList
      (by simpa [Token.css] using takes) ⟨m, .inr (.inr ⟨unit, rfl⟩)⟩
    obtain ⟨c, chars, written, split, -⟩ := Numeral.exists_cons writable
    have taken := takes.tokenAt_eq c (chars ++ unit.toList)
      (by simp [Token.css, written])
    have plainAll : '\\' ∉ n.literal.text ++ (unit.toList ++ rest) := by
      rw [Numeral.text_literal writable]
      simp [n.notMem_css (c := '\\') (by decide) (by decide),
        backslash_notMem_of_isNameChar lexeme.2.2, plain]
    rw [List.append_assoc, Lexer.tokenAt_literal n.isPositional_literal split,
      ← String.ofList_toList (s := unit), String.toList_ofList] at taken
    exact ⟨writable, Lexer.endsBefore_of_dimension n.isPositional_literal plainAll taken⟩
  | whitespace =>
    cases same
    have taken := takes.tokenAt_eq ' ' [] rfl
    exact head?_of_dropWhile_eq (congrArg Lexer.Step.rest taken)
  | badString | badUrl | endOfFile => exact lexeme.elim
  | _ => trivial

end

/-! ### Lexemes one behind the other -/

/-- Tokens as style sheet text, one behind the other. -/
def Token.cssAll (tokens : List Token) : List Char := tokens.flatMap fun token => token.css.toList

/-- **That tokens do not run into each other**: written one behind the other before `rest`, each of
them ends before the text behind it. -/
def Token.Apart (rest : List Char) : List Token → Prop
  | [] => True
  | token :: tokens => token.EndsBefore (cssAll tokens ++ rest) ∧ Apart rest tokens

section

variable {tokens : List Token} {rest : List Char}

theorem Token.backslash_notMem_cssAll (lexemes : ∀ token ∈ tokens, token.IsLexeme) :
    '\\' ∉ cssAll tokens := by
  rw [cssAll, List.mem_flatMap]
  rintro ⟨token, member, inside⟩
  exact (lexemes token member).backslash_notMem inside

/-- A token that is taken comes before the tokens of the text behind it. -/
theorem tokenizeChars_of_takes {text : List Char} {token : Token}
    (takes : Lexer.Takes text token rest) :
    tokenizeChars (text ++ rest) =
      ⟨token :: (tokenizeChars rest).tokens, (tokenizeChars rest).faults⟩ := by
  obtain ⟨c, chars, rfl, skipped, taken⟩ := takes
  rw [List.cons_append, tokenizeChars_of_cons skipped, taken]
  rfl

/-- **Tokens that do not run into each other are read back**, before the tokens of the text behind
them. -/
theorem tokenizeChars_cssAll (lexemes : ∀ token ∈ tokens, token.IsLexeme) (plain : '\\' ∉ rest)
    (apart : Token.Apart rest tokens) :
    tokenizeChars (Token.cssAll tokens ++ rest) =
      ⟨tokens.map Token.reread ++ (tokenizeChars rest).tokens, (tokenizeChars rest).faults⟩ := by
  induction tokens with
  | nil => rfl
  | cons token tokens ih =>
    obtain ⟨here, later⟩ := List.forall_mem_cons.mp lexemes
    have plainRest : '\\' ∉ Token.cssAll tokens ++ rest := by
      rw [List.mem_append, not_or]
      exact ⟨Token.backslash_notMem_cssAll later, plain⟩
    have split : Token.cssAll (token :: tokens) ++ rest =
        token.css.toList ++ (Token.cssAll tokens ++ rest) := by
      simp [Token.cssAll]
    rw [split, tokenizeChars_of_takes (here.takes plainRest apart.1), ih later apart.2]
    rfl

end

end PagedHtml.Css
