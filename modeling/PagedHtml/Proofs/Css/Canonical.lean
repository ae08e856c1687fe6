/-
**Canonical values are read back from their text.**

A value is canonical when each of its names is an ASCII word, its numbers are whole and of 64 bits,
its strings and addresses hold nothing that ends them, and a comma or a space stands between any two
of its components (`Component.IsCanonical`, `Component.MayFollow`). Such a value has no two tokens
that run into each other (`apart_tokensAll_of`), so its text is read as the tokens that spell
it.

* `parseDeclarations_serialize`: the text of a canonical value, as the value of a declaration, is
  read as this value.
-/

import PagedHtml.Proofs.Css.Embedding
import PagedHtml.Proofs.Css.Writing

namespace PagedHtml.Css

open Text (isSpace)
open Number (Literal)
open Scan

/-! ### Canonical values -/

/-- An ASCII letter, a digit, a low line or a hyphen. -/
def isWordChar (c : Char) : Bool := c.isAlpha || c.isDigit || c == '_' || c == '-'

/-- An ASCII name: a letter or a low line, and behind it any characters of words. -/
def IsWord (chars : List Char) : Prop :=
  ∃ c rest, chars = c :: rest ∧ (c.isAlpha = true ∨ c = '_') ∧ ∀ d ∈ rest, isWordChar d = true

/-- A whole number of 64 bits, with the value that its text is read with. -/
def Numeral.IsCanonical (n : Numeral) : Prop :=
  ∃ i : Int, (-0x8000000000000000 ≤ i ∧ i < 0x8000000000000000) ∧
    n = ⟨(Literal.take (toString i).toList).1.value, some i⟩

/-- **A canonical token**, brackets apart. -/
def Token.IsCanonical : Token → Prop
  | ident name => IsWord name.toList
  | hash name => name.toList ≠ [] ∧ ∀ c ∈ name.toList, isWordChar c = true
  | string text => ∀ c ∈ text.toList, c ≠ '"' ∧ c ≠ '\\' ∧ c ≠ '\n'
  | url text => ∀ c ∈ text.toList, isSpace c = false ∧ c ≠ '"' ∧ c ≠ '\'' ∧ c ≠ '(' ∧ c ≠ ')' ∧
      c ≠ '\\'
  | number n | percentage n => n.IsCanonical
  | dimension n unit =>
      n.IsCanonical ∧ unit.toList ≠ [] ∧ ∀ c ∈ unit.toList, c.isAlpha = true
  | delim c => c = '/'
  | comma | whitespace => True
  | _ => False

namespace Component

/-- A component that separates others. -/
def IsSeparator (component : Component) : Prop :=
  component = .token .comma ∨ component = .token .whitespace

/-- That two components may stand side by side: one of them separates, and they are not both spaces.
-/
def MayFollow (first second : Component) : Prop :=
  (first.IsSeparator ∨ second.IsSeparator) ∧
    ¬ (first = .token .whitespace ∧ second = .token .whitespace)

/-- **A canonical component.** -/
inductive IsCanonical : Component → Prop
  | token {token : Token} : token.IsCanonical → IsCanonical (.token token)
  | function {name : String} {arguments : List Component} : IsWord name.toList →
      Text.equalsIgnoringCase name "url" = false →
      (∀ argument ∈ arguments, IsCanonical argument) → arguments.IsChain MayFollow →
      IsCanonical (.function name arguments)
  | block {bracket : Bracket} {contents : List Component} :
      (∀ content ∈ contents, IsCanonical content) → contents.IsChain MayFollow →
      IsCanonical (.block bracket contents)

end Component

/-! ### Words and numerals -/

theorem isNameChar_of_isWordChar {c : Char} (word : isWordChar c = true) :
    isNameChar c = true := by
  simp only [isWordChar, Bool.or_eq_true] at word
  simp only [isNameChar, isNameStart, Bool.or_eq_true]
  tauto

theorem isNameStart_of_isAlpha {c : Char} (letter : c.isAlpha = true) : isNameStart c = true := by
  simp [isNameStart, letter]

theorem IsWord.isName {chars : List Char} (word : IsWord chars) : IsName chars := by
  obtain ⟨c, rest, rfl, start, word⟩ := word
  have starts : isNameStart c = true := by
    rcases start with letter | rfl
    · exact isNameStart_of_isAlpha letter
    · decide
  refine ⟨startsName_of_isNameStart starts rest, List.forall_mem_cons.mpr ⟨?_, ?_⟩⟩
  · simp [isNameChar, starts]
  · exact fun d member => isNameChar_of_isWordChar (word d member)

theorem isName_of_letters {chars : List Char} (nonempty : chars ≠ [])
    (letters : ∀ c ∈ chars, c.isAlpha = true) : IsName chars := by
  obtain ⟨c, rest, rfl⟩ := List.exists_cons_of_ne_nil nonempty
  refine IsWord.isName ⟨c, rest, rfl, .inl (letters c List.mem_cons_self), fun d member => ?_⟩
  simp [isWordChar, letters d (List.mem_cons_of_mem c member)]

namespace Numeral

variable {n : Numeral}

/-- What is read from the text of a canonical numeral is the numeral. -/
theorem IsCanonical.reread_eq (canonical : n.IsCanonical) : n.reread = n := by
  obtain ⟨i, range, rfl⟩ := canonical
  have ends : (Literal.ofInt i).EndsBefore [] := ⟨rfl, fun _ => rfl, rfl⟩
  have whole := Literal.take_of_endsBefore (Literal.isPositional_ofInt i) ends
  rw [List.append_nil, Literal.text_ofInt] at whole
  simp only [reread, literal, whole, Literal.integer?_ofInt range]

theorem IsCanonical.isRead (canonical : n.IsCanonical) : n.IsRead :=
  ⟨n.literal, canonical.reread_eq.symm⟩

theorem IsCanonical.isWritable (canonical : n.IsCanonical) : n.IsWritable := by
  obtain ⟨i, -, rfl⟩ := canonical
  exact nofun

end Numeral

/-! ### Canonical tokens -/

section

variable {token : Token} {rest : List Char}

theorem Token.IsCanonical.isLexeme (canonical : token.IsCanonical) : token.IsLexeme := by
  cases token with
  | ident name => exact canonical.isName
  | hash name =>
    exact ⟨canonical.1, fun c member => isNameChar_of_isWordChar (canonical.2 c member)⟩
  | string text => exact fun c member => ⟨(canonical c member).2.2, (canonical c member).2.1⟩
  | url text => exact canonical
  | delim c =>
    obtain rfl : c = '/' := canonical
    exact ⟨rfl, by decide, by decide, by decide, by decide⟩
  | number n | percentage n => exact canonical.isRead
  | dimension n unit => exact ⟨canonical.1.isRead, isName_of_letters canonical.2.1 canonical.2.2⟩
  | comma | whitespace => trivial
  | _ => exact canonical.elim

theorem Token.IsCanonical.reread_eq (canonical : token.IsCanonical) : token.reread = token := by
  cases token with
  | number n => exact congrArg Token.number canonical.reread_eq
  | percentage n => exact congrArg Token.percentage canonical.reread_eq
  | dimension n unit => exact congrArg (Token.dimension · unit) canonical.1.reread_eq
  | _ => rfl

/-- That nothing follows, or what separates or closes. -/
def IsSeparated (rest : List Char) : Prop := ∀ c ∈ rest.head?, c ∈ ", )]\x7d".toList

theorem IsSeparated.forall_head {p : Char → Prop} (separated : IsSeparated rest)
    (holds : ∀ c ∈ ", )]\x7d".toList, p c) : ∀ c ∈ rest.head?, p c :=
  fun c first => holds c (separated c first)

/-- No name starts with what separates. -/
theorem IsSeparated.startsName_eq_false (separated : IsSeparated rest) :
    startsName rest = false := by
  have plain : ∀ c ∈ rest.head?, isNameStart c = false ∧ c ≠ '-' ∧ c ≠ '\\' :=
    separated.forall_head (by decide)
  cases rest with
  | nil => rfl
  | cons c more =>
    obtain ⟨start, hyphen, escape⟩ := plain c rfl
    rw [startsName] <;> assumption

/-- A letter is no digit, no sign and no point. -/
theorem isAlpha_stops {c : Char} (letter : c.isAlpha = true) :
    c.isDigit = false ∧ c ≠ '+' ∧ c ≠ '-' ∧ c ≠ '.' := by
  have start := isNameStart_of_isAlpha letter
  exact ⟨not_isDigit_of_isNameStart start, isNameStart_ne start (by decide),
    isNameStart_ne start (by decide), isNameStart_ne start (by decide)⟩

/-- **A canonical token ends before what separates.** -/
theorem Token.IsCanonical.endsBefore (canonical : token.IsCanonical)
    (visible : token ≠ .whitespace) (separated : IsSeparated rest) : token.EndsBefore rest := by
  have names : ∀ c ∈ rest.head?, isNameChar c = false := separated.forall_head (by decide)
  cases token with
  | ident name =>
    have opens : ∀ c ∈ rest.head?, c ≠ '(' := separated.forall_head (by decide)
    refine ⟨fun c first => ⟨names c first, opens c first⟩, fun hyphens => ?_⟩
    obtain ⟨c, more, split, start, -⟩ := canonical
    rw [hyphens.1] at split
    obtain ⟨rfl, -⟩ := List.cons.inj split
    exact absurd start (by decide)
  | hash name => exact names
  | string text => exact fun member => (canonical _ member).1 rfl
  | delim c =>
    obtain rfl : c = '/' := canonical
    have comment : ∀ c ∈ rest.head?, c ≠ '*' := separated.forall_head (by decide)
    rintro (⟨same, -⟩ | number | name | ⟨same, -⟩ | ⟨same, -⟩ | ⟨same, -⟩ | ⟨-, first⟩)
    · cases same
    · cases number
    · cases name
    · cases same
    · cases same
    · cases same
    · exact comment '*' first rfl
  | number n =>
    have percent : ∀ c ∈ rest.head?, c ≠ '%' := separated.forall_head (by decide)
    exact ⟨canonical.isWritable, Literal.endsBefore_of_head (separated.forall_head (by decide)),
      separated.startsName_eq_false, fun first => percent '%' first rfl⟩
  | percentage n => exact canonical.isWritable
  | dimension n unit =>
    refine ⟨canonical.1.isWritable, ?_, names⟩
    obtain ⟨c, more, split⟩ := List.exists_cons_of_ne_nil canonical.2.1
    have letters := canonical.2.2
    rw [split] at letters ⊢
    obtain ⟨here, later⟩ := List.forall_mem_cons.mp letters
    obtain ⟨digit, -, -, point⟩ := isAlpha_stops here
    have behind : ∀ d ∈ (more ++ rest).head?, d.isDigit = false ∧ d ≠ '+' ∧ d ≠ '-' := by
      cases more with
      | nil => exact separated.forall_head (by decide)
      | cons d others =>
        intro e first
        obtain rfl := Option.some.inj first
        obtain ⟨digit, plus, minus, -⟩ := isAlpha_stops (later d List.mem_cons_self)
        exact ⟨digit, plus, minus⟩
    exact ⟨digit, fun _ => by simp [Literal.takeFraction, point],
      Literal.takeExponent_eq_none behind⟩
  | whitespace => exact absurd rfl visible
  | url text | comma => trivial
  | _ => exact canonical.elim

end

/-! ### Canonical components -/

namespace Component

variable {component : Component} {components : List Component} {token : Token}

theorem openingToken_isLexeme (bracket : Bracket) :
    bracket.openingToken.IsLexeme ∧ bracket.openingToken.reread = bracket.openingToken := by
  cases bracket <;> exact ⟨trivial, rfl⟩

theorem closingToken_isLexeme (bracket : Bracket) :
    bracket.closingToken.IsLexeme ∧ bracket.closingToken.reread = bracket.closingToken := by
  cases bracket <;> exact ⟨trivial, rfl⟩

/-- The tokens of a canonical component are lexemes that are read back as they are. -/
theorem IsCanonical.isLexeme (canonical : component.IsCanonical) :
    ∀ token ∈ component.tokens, token.IsLexeme ∧ token.reread = token := by
  induction canonical with
  | token canonical =>
    intro token member
    obtain rfl := List.mem_singleton.mp member
    exact ⟨canonical.isLexeme, canonical.reread_eq⟩
  | function word _ _ _ ih =>
    intro token member
    rcases (by simpa [tokens, mem_tokensAll] using member) with
      rfl | ⟨argument, listed, inside⟩ | rfl
    · exact ⟨word.isName, rfl⟩
    · exact ih argument listed token inside
    · exact ⟨trivial, rfl⟩
  | @block bracket _ _ _ ih =>
    intro token member
    rcases (by simpa [tokens, mem_tokensAll] using member) with
      rfl | ⟨content, listed, inside⟩ | rfl
    · exact openingToken_isLexeme bracket
    · exact ih content listed token inside
    · exact closingToken_isLexeme bracket

/-- A canonical component starts with no space, unless it is one. -/
theorem IsCanonical.isSpace_of_head (canonical : component.IsCanonical)
    (visible : component ≠ .token .whitespace) (rest : List Char) :
    ∀ c ∈ (Token.cssAll component.tokens ++ rest).head?, isSpace c = false := by
  obtain ⟨more, split⟩ := component.exists_tokens_eq
  have lexeme := (canonical.isLexeme component.lead (split ▸ List.mem_cons_self)).1
  have notSpace : component.lead ≠ .whitespace := mt (lead_eq_iff _ rfl).mp visible
  rw [split, Token.cssAll, List.flatMap_cons, List.append_assoc,
    List.head?_append_of_ne_nil _ lexeme.css_ne_nil]
  exact (lexeme.isSpace_of_end notSpace).1

/-- What closes a list: nothing, or a closer. -/
def IsClosed (rest : List Char) : Prop := ∀ c ∈ rest.head?, c ∈ ")]\x7d".toList

theorem IsClosed.isSeparated {rest : List Char} (closed : IsClosed rest) : IsSeparated rest :=
  fun c first => (by decide : ∀ c ∈ ")]\x7d".toList, c ∈ ", )]\x7d".toList) c (closed c first)

/-- The tokens of neighbours do not run into each other, if those of each component before what
separates it do not. -/
theorem apart_tokensAll_of {rest : List Char} (closed : IsClosed rest)
    (canonical : ∀ component ∈ components, component.IsCanonical)
    (each : ∀ component ∈ components, ¬ component.IsSeparator → ∀ rest, IsSeparated rest →
      Token.Apart rest component.tokens) (chain : components.IsChain MayFollow) :
    Token.Apart rest (tokensAll components) := by
  induction components with
  | nil => trivial
  | cons first others ih =>
    obtain ⟨canonicalFirst, canonicalOthers⟩ := List.forall_mem_cons.mp canonical
    obtain ⟨eachFirst, eachOthers⟩ := List.forall_mem_cons.mp each
    refine Token.apart_append_iff.mpr ⟨?_, ih canonicalOthers eachOthers chain.tail⟩
    by_cases separator : first.IsSeparator
    · rcases separator with rfl | rfl
      · exact ⟨trivial, trivial⟩
      · refine ⟨?_, trivial⟩
        cases others with
        | nil =>
          have noSpace : ∀ c ∈ ")]\x7d".toList, isSpace c = false := by decide
          exact fun c member => noSpace c (closed c member)
        | cons second more =>
          obtain ⟨⟨-, spaces⟩, -⟩ := List.isChain_cons_cons.mp chain
          have visible : second ≠ .token .whitespace := fun same => spaces ⟨rfl, same⟩
          have first := (canonicalOthers second List.mem_cons_self).isSpace_of_head visible
            (Token.cssAll (tokensAll more) ++ rest)
          rwa [← List.append_assoc, ← Token.cssAll_append] at first
    · refine eachFirst separator _ ?_
      cases others with
      | nil => exact closed.isSeparated
      | cons second more =>
        obtain ⟨⟨either, -⟩, -⟩ := List.isChain_cons_cons.mp chain
        rcases either.resolve_left separator with rfl | rfl <;>
        · intro c member
          obtain rfl := Option.some.inj member
          decide

/-- **The tokens of a canonical component do not run into each other.** -/
theorem IsCanonical.apart (canonical : component.IsCanonical) (visible : ¬ component.IsSeparator)
    {rest : List Char} (separated : IsSeparated rest) : Token.Apart rest component.tokens := by
  induction canonical generalizing rest with
  | token canonical =>
    have notSpace := mt (congrArg Component.token) fun space => visible (.inr space)
    exact ⟨canonical.endsBefore notSpace separated, trivial⟩
  | function word address canonical chain ih =>
    refine ⟨fun isAddress => ?_, ?_⟩
    · rw [isAddress] at address
      cases address
    · refine Token.apart_append_iff.mpr ⟨?_, trivial, trivial⟩
      exact apart_tokensAll_of (by simp [IsClosed, Token.cssAll, Token.css]) canonical
        (fun argument listed notSeparator rest => ih argument listed notSeparator) chain
  | @block bracket contents canonical chain ih =>
    have closed : IsClosed (Token.cssAll [bracket.closingToken] ++ rest) := by
      cases bracket <;> simp [IsClosed, Token.cssAll, Token.css, Bracket.closingToken]
    have inside := apart_tokensAll_of closed canonical
      (fun content listed notSeparator rest => ih content listed notSeparator) chain
    cases bracket <;>
      exact ⟨trivial, Token.apart_append_iff.mpr ⟨inside, trivial, trivial⟩⟩

theorem IsCanonical.isPlain (canonical : (Component.token token).IsCanonical) :
    token.IsPlain := by
  cases canonical with
  | token canonical =>
    cases token with
    | ident | hash | string | url | number | percentage | dimension | delim | comma | whitespace =>
      exact ⟨rfl, nofun, nofun, nofun⟩
    | _ => exact canonical.elim

theorem closingToken_notMem (bracket : Bracket)
    (canonical : ∀ component ∈ components, component.IsCanonical) :
    .token bracket.closingToken ∉ components := by
  intro member
  cases canonical _ member with
  | token canonical => cases bracket <;> exact canonical

theorem spells_tokensAll_of (each : ∀ component ∈ components, ∀ (rest : List Token) others,
    Spells rest others → Spells (component.tokens ++ rest) (component :: others)) :
    Spells (tokensAll components) components := by
  induction components with
  | nil => exact .nil
  | cons first others ih =>
    obtain ⟨here, later⟩ := List.forall_mem_cons.mp each
    exact here _ _ (ih later)

/-- A canonical component is spelt with its tokens. -/
theorem IsCanonical.spells (canonical : component.IsCanonical) (rest : List Token)
    (others : List Component) (spells : Spells rest others) :
    Spells (component.tokens ++ rest) (component :: others) := by
  induction canonical generalizing rest others with
  | token canonical => exact .plain (IsCanonical.token canonical).isPlain spells
  | @function name arguments _ _ canonical _ ih =>
    have inside := spells_tokensAll_of ih
    have closed := closingToken_notMem .round canonical
    rw [tokens, List.cons_append, List.append_assoc]
    exact @Spells.nested (.function name) (.function name) _ _ _ _ rfl inside closed spells
  | @block bracket contents canonical _ ih =>
    have inside := spells_tokensAll_of ih
    have closed := closingToken_notMem bracket canonical
    rw [tokens, List.cons_append, List.append_assoc]
    exact @Spells.nested _ (.block bracket) _ _ _ _ (opening?_openingToken bracket) inside closed
      spells

end Component

/-! ### Canonical declarations -/

open Component

/-- The tokens of a declaration of a canonical value are those of the value, behind a name and a
colon. -/
theorem tokensOf_serialize {value : List Component}
    (canonical : ∀ component ∈ value, component.IsCanonical) (chain : value.IsChain MayFollow) :
    tokensOf ("x:" ++ serialize value) =
      .ok (.ident "x" :: .colon :: tokensAll value ++ [.endOfFile]) := by
  have tidy : ∀ token ∈ .ident "x" :: .colon :: tokensAll value,
      token.IsLexeme ∧ token.reread = token := by
    refine List.forall_mem_cons.mpr ⟨⟨⟨rfl, by decide⟩, rfl⟩, List.forall_mem_cons.mpr
      ⟨⟨trivial, rfl⟩, fun token member => ?_⟩⟩
    obtain ⟨component, listed, inside⟩ := mem_tokensAll.mp member
    exact (canonical component listed).isLexeme token inside
  have apartValue : Token.Apart [] (tokensAll value) :=
    apart_tokensAll_of nofun canonical
      (fun component listed visible _ => (canonical component listed).apart visible) chain
  have apart : Token.Apart [] (.ident "x" :: .colon :: tokensAll value) := by
    refine ⟨⟨fun c first => ?_, fun hyphens => absurd hyphens.1 (by decide)⟩, trivial, apartValue⟩
    obtain rfl := Option.some.inj first
    decide
  have written : ("x:" ++ serialize value).toList =
      Token.cssAll (.ident "x" :: .colon :: tokensAll value) ++ [] := by
    have lexemes : ∀ token ∈ tokensAll value, token.IsLexeme := fun token member =>
      (tidy token (List.mem_cons_of_mem _ (List.mem_cons_of_mem _ member))).1
    rw [String.toList_append, toList_serialize lexemes,
      Token.squeeze_of_apart apartValue (fun behind => absurd behind Bool.false_ne_true)]
    simp [Token.cssAll, Token.css]
  have same : (Token.ident "x" :: .colon :: tokensAll value).map Token.reread =
      .ident "x" :: .colon :: tokensAll value :=
    (List.map_congr_left fun token member => (tidy token member).2).trans (List.map_id _)
  have lexed := tokenizeChars_cssAll (fun token member => (tidy token member).1)
    List.not_mem_nil apart
  rw [tokenizeChars_of_nil skipComments?_nil, same] at lexed
  rw [tokensOf_eq_ok_iff, tokenize, written, lexed]
  exact ⟨rfl, rfl⟩

/-- **The text of a canonical value is read as this value.** -/
theorem parseDeclarations_serialize {value : List Component}
    (canonical : ∀ component ∈ value, component.IsCanonical) (chain : value.IsChain MayFollow)
    (starts : value.head? ≠ some (.token .whitespace))
    (ends : value.getLast? ≠ some (.token .whitespace)) :
    parseDeclarations ("x:" ++ serialize value) = .ok [⟨"x", value, false⟩] := by
  have spells : Spells (tokensAll value) value :=
    spells_tokensAll_of fun component listed => (canonical component listed).spells
  have closed : ∀ component ∈ value,
      component ≠ .token .semicolon ∧ component ≠ .token .rightBrace := by
    intro component listed
    have isCanonical := canonical component listed
    constructor <;>
    · rintro rfl
      cases isCanonical with
      | token none => exact none
  have unmarked : ∀ mark, Declaration.Mark mark → ¬ mark <:+ value := by
    rintro mark ⟨-, -⟩ suffix
    cases canonical (.token (.delim '!')) (suffix.mem (by simp)) with
    | token slash => exact absurd (show '!' = '/' from slash) (by decide)
  have annotated := @Declaration.Annotated.plain value [] ends unmarked nofun
  rw [List.append_nil] at annotated
  have declared :=
    @Declaration.Spells.mk "x" [] [] _ _ _ _ nofun nofun spells closed starts annotated
  exact parseDeclarations_eq_ok_iff.mpr
    ⟨_, tokensOf_serialize canonical chain, .inl (.last declared)⟩

/-- A word and a function with a number and a string: `a f(-5,"b c")`. -/
theorem parseDeclarations_serialize_function :
    let five : Numeral := ⟨(Literal.take (toString (-5 : Int)).toList).1.value, some (-5)⟩
    let value : List Component := [.token (.ident "a"), .token .whitespace,
      .function "f" [.token (.number five), .token .comma, .token (.string "b c")]]
    (∀ component ∈ value, component.IsCanonical) ∧ value.IsChain MayFollow ∧
      value.head? ≠ some (.token .whitespace) ∧ value.getLast? ≠ some (.token .whitespace) ∧
      parseDeclarations ("x:" ++ serialize value) = .ok [⟨"x", value, false⟩] := by
  intro five value
  have word {c : Char} (letter : c.isAlpha = true) : IsWord [c] := ⟨c, [], rfl, .inl letter, nofun⟩
  have inside : ∀ argument ∈ [Component.token (.number five), .token .comma,
      .token (.string "b c")], argument.IsCanonical := by
    have text : ∀ c ∈ "b c".toList, c ≠ '"' ∧ c ≠ '\\' ∧ c ≠ '\n' := by decide
    simp only [List.forall_mem_cons]
    exact ⟨.token ⟨-5, by decide, rfl⟩, .token trivial, .token text, nofun⟩
  have around : [Component.token (.number five), .token .comma, .token (.string "b c")].IsChain
      MayFollow :=
    .cons_cons ⟨.inr (.inl rfl), nofun⟩ (.cons_cons ⟨.inl (.inl rfl), nofun⟩ (.singleton _))
  have canonical : ∀ component ∈ value, component.IsCanonical := by
    simp only [value, List.forall_mem_cons]
    exact ⟨.token (word (by decide)), .token trivial,
      .function (word (by decide)) (by decide) inside around, nofun⟩
  have chain : value.IsChain MayFollow :=
    .cons_cons ⟨.inr (.inr rfl), nofun⟩ (.cons_cons ⟨.inl (.inr rfl), nofun⟩ (.singleton _))
  exact ⟨canonical, chain, nofun, nofun, parseDeclarations_serialize canonical chain nofun nofun⟩

end PagedHtml.Css
