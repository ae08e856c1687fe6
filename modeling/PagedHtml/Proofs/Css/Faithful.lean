/-
**When the text of a value is faithful to its source.**

The text of a value is faithful when each token of the value is read from just the characters that
it is written as, as the same token (`Token.ReadsBack`, `Declaration.IsFaithful`). Nothing is put
between tokens that are written, so this depends on the tokens: it fails where two of them run into
each other, and where a blank at an end of the value is part of a name, since it is trimmed.

* `Token.readsBack_iff`: what is read back are tokens that do not run into each other;
* `Declaration.isFaithful_iff`: for the declarations of a text without backslashes, faithfulness by
  the tokens of the value;
* `Declaration.valueText_sum`: two numbers that are written as one.
-/

import PagedHtml.Proofs.Css.Embedding
import PagedHtml.Proofs.Css.Writing
import PagedHtml.Proofs.Number.Shortest
import PagedHtml.Proofs.Text.Pieces

namespace PagedHtml.Css

open Number (Literal)

/-! ### Tokens read again -/

/-- **A numeral is read back from its text with an equal value.** -/
theorem Numeral.equals_reread {n : Numeral} (isRead : n.IsRead) (writable : n.IsWritable) :
    n.reread.value.equals n.value = true := by
  obtain ⟨l, rfl⟩ := isRead
  cases whole : l.integer? with
  | some i => simpa [reread, literal, whole] using Literal.equals_value_ofInt whole
  | none =>
    rw [whole] at writable
    have same := Literal.value_ofDouble_eq (writable rfl)
    simp [reread, literal, same, Number.Double.equals]

/-- **A lexeme that ends before a text is read back as the same token.** -/
theorem Token.IsLexeme.same_reread {token : Token} (lexeme : token.IsLexeme) {rest : List Char}
    (ends : token.EndsBefore rest) : token.reread.Same token := by
  cases token with
  | number n => exact .number (n.equals_reread lexeme ends.1)
  | percentage n => exact .percentage (n.equals_reread lexeme ends)
  | dimension n unit => exact .dimension (n.equals_reread lexeme.1 ends.1)
  | _ => exact .refl

/-! ### Tokens read back one by one -/

namespace Token

/-- **That tokens are read back from a text one by one**, each from just the characters that it is
written as. -/
inductive ReadsBack : List Char → List Token → Prop
  | nil : ReadsBack [] []
  | cons {token other : Token} {rest : List Char} {tokens : List Token} :
      Lexer.Takes token.css.toList other rest → other.Same token → ReadsBack rest tokens →
      ReadsBack (token.css.toList ++ rest) (token :: tokens)

section

variable {text : List Char} {tokens : List Token}

theorem cssAll_cons (token : Token) (tokens : List Token) :
    cssAll (token :: tokens) = token.css.toList ++ cssAll tokens :=
  List.flatMap_cons

theorem ReadsBack.eq_cssAll (reads : ReadsBack text tokens) : text = cssAll tokens := by
  induction reads with
  | nil => rfl
  | cons _ _ _ ih => rw [cssAll_cons, ih]

/-- **Lexemes are read back just if they do not run into each other.** -/
theorem readsBack_iff (lexemes : ∀ token ∈ tokens, token.IsLexeme) :
    ReadsBack text tokens ↔ text = cssAll tokens ∧ Apart [] tokens := by
  constructor
  · intro reads
    refine ⟨reads.eq_cssAll, ?_⟩
    induction reads with
    | nil => trivial
    | @cons token other rest tokens takes same reads ih =>
      obtain ⟨lexeme, later⟩ := List.forall_mem_cons.mp lexemes
      have plain : '\\' ∉ rest := reads.eq_cssAll ▸ backslash_notMem_cssAll later
      refine ⟨?_, ih later⟩
      rw [List.append_nil, ← reads.eq_cssAll]
      exact lexeme.endsBefore plain same takes
  · rintro ⟨rfl, apart⟩
    induction tokens with
    | nil => exact .nil
    | cons token tokens ih =>
      obtain ⟨lexeme, later⟩ := List.forall_mem_cons.mp lexemes
      obtain ⟨ends, apart⟩ := apart
      rw [List.append_nil] at ends
      rw [cssAll_cons]
      exact .cons (lexeme.takes (backslash_notMem_cssAll later) ends) (lexeme.same_reread ends)
        (ih later apart)

/-- **A text from which tokens are read back has these tokens**, and no faults. -/
theorem ReadsBack.tokenizeChars (reads : ReadsBack text tokens) :
    (tokenizeChars text).faults = [] ∧
      List.Forall₂ Same (tokenizeChars text).tokens (tokens ++ [.endOfFile]) := by
  induction reads with
  | nil =>
    rw [tokenizeChars_of_nil skipComments?_nil]
    exact ⟨rfl, .cons .refl .nil⟩
  | cons takes same _ ih =>
    rw [tokenizeChars_of_takes takes]
    exact ⟨ih.1, .cons same ih.2⟩

end

/-- Whether a token is neither a space nor the end. -/
def isVisible (token : Token) : Bool := token ≠ .whitespace ∧ token ≠ .endOfFile

theorem Same.isVisible_eq {token other : Token} (same : Same token other) :
    token.isVisible = other.isVisible := by
  cases same with
  | refl => rfl
  | number | percentage | dimension => simp [isVisible]

/-- Squeezing leaves out nothing visible. -/
theorem filter_isVisible_squeeze (behindSpace : Bool) (tokens : List Token) :
    (squeeze behindSpace tokens).filter isVisible = tokens.filter isVisible := by
  have split (list : List Token) :
      list.filter isVisible = (list.filter (· ≠ .whitespace)).filter (· ≠ .endOfFile) := by
    rw [List.filter_filter]
    exact List.filter_congr fun token _ => by simp [isVisible, and_comm]
  rw [split, split, filter_squeeze]

end Token

/-! ### The tokens of a declared value -/

/-- **The tokens of a text without backslashes are lexemes**, if none of them is an error. -/
theorem isLexeme_of_mem_tokenizeChars {chars : List Char} (plain : '\\' ∉ chars)
    {body : List Token} (tokens : (tokenizeChars chars).tokens = body ++ [.endOfFile])
    (sound : ∀ token ∈ body, ¬ token.IsVoid) : ∀ token ∈ body, token.IsLexeme := by
  fun_induction tokenizeChars chars generalizing body with
  | case1 | case2 =>
    have nothing : body = [] := by simpa using tokens
    rw [nothing]
    exact List.forall_mem_nil _
  | case3 chars c rest skipped _ _ step others =>
    rename_i ih
    cases body with
    | nil => exact List.forall_mem_nil _
    | cons first body =>
      obtain ⟨rfl, tokensOthers⟩ := List.cons.inj tokens
      obtain ⟨soundStep, soundOthers⟩ := List.forall_mem_cons.mp sound
      obtain ⟨plainHere, plainStep⟩ := Lexer.notMem_of_skipComments? plain skipped
      exact List.forall_mem_cons.mpr ⟨Lexer.isLexeme_tokenAt plainHere soundStep,
        ih plainStep tokensOthers soundOthers⟩

namespace Declaration

variable {text : String} {tokens : List Token} {declaration : Declaration}
  {declarations : List Declaration}

/-- The tokens of the value of a declaration are among those that spell it. -/
theorem Spells.mem_of_mem_tokensAll (spells : Spells tokens declaration) {token : Token}
    (inside : token ∈ Component.tokensAll declaration.value) : token ∈ tokens := by
  cases spells with
  | mk _ _ spelt _ _ annotated =>
    obtain ⟨component, listed, inside⟩ := Component.mem_tokensAll.mp inside
    refine List.mem_append_right _ ?_
    rw [spelt.eq_tokensAll]
    exact Component.mem_tokensAll.mpr ⟨component, annotated.isPrefix.subset listed, inside⟩

theorem SpellsAll.mem_of_mem_tokensAll (spells : SpellsAll tokens declarations)
    (member : declaration ∈ declarations) {token : Token}
    (inside : token ∈ Component.tokensAll declaration.value) : token ∈ tokens := by
  induction spells with
  | nil => cases member
  | skip _ _ ih => exact List.mem_cons_of_mem _ (ih member)
  | atRule _ _ ih => exact List.mem_append_right _ (ih member)
  | last spells =>
    obtain rfl := List.mem_singleton.mp member
    exact spells.mem_of_mem_tokensAll inside
  | cons spells _ ih =>
    rcases List.mem_cons.mp member with rfl | later
    · exact List.mem_append_left _ (spells.mem_of_mem_tokensAll inside)
    · exact List.mem_append_right _ (List.mem_cons_of_mem _ (ih later))

theorem SpellsOpen.mem_of_mem_tokensAll (spells : SpellsOpen tokens declarations)
    (member : declaration ∈ declarations) {token : Token}
    (inside : token ∈ Component.tokensAll declaration.value) : token ∈ tokens := by
  induction spells with
  | unended => cases member
  | skip _ _ ih => exact List.mem_cons_of_mem _ (ih member)
  | atRule _ _ ih => exact List.mem_append_right _ (ih member)
  | cons spells _ ih =>
    rcases List.mem_cons.mp member with rfl | later
    · exact List.mem_append_left _ (spells.mem_of_mem_tokensAll inside)
    · exact List.mem_append_right _ (List.mem_cons_of_mem _ (ih later))

/-- **The tokens of a declared value are lexemes.** -/
theorem isLexeme_of_parseDeclarations (plain : '\\' ∉ text.toList)
    (accepted : parseDeclarations text = .ok declarations) (member : declaration ∈ declarations) :
    ∀ token ∈ Component.tokensAll declaration.value, token.IsLexeme := by
  obtain ⟨tokens, lexed, spells⟩ := parseDeclarations_eq_ok_iff.mp accepted
  obtain ⟨-, same⟩ := tokensOf_eq_ok_iff.mp lexed
  have sound : ∀ token ∈ tokens, ¬ token.IsVoid := fun token inside void =>
    spells.elim (·.void_notMem void inside) (·.void_notMem void inside)
  have inside {token : Token} (listed : token ∈ Component.tokensAll declaration.value) :
      token ∈ tokens :=
    spells.elim (·.mem_of_mem_tokensAll member listed) (·.mem_of_mem_tokensAll member listed)
  exact fun token listed =>
    isLexeme_of_mem_tokenizeChars plain same sound token (inside listed)

/-! ### Faithful values -/

/-- **That the text of a value is faithful**: each token of the value is read back from just what it
is written as, so that the text has no faults and the same visible tokens as the value. -/
structure IsFaithful (declaration : Declaration) : Prop where
  reads : Token.ReadsBack declaration.valueText.toList
    (Token.squeeze false (Component.tokensAll declaration.value))
  faultless : (tokenize declaration.valueText).faults = []
  same : List.Forall₂ Token.Same
    ((tokenize declaration.valueText).tokens.filter Token.isVisible)
    ((Component.tokensAll declaration.value).filter Token.isVisible)

/-- What is read back token by token has no faults and the same visible tokens. -/
theorem isFaithful_of_readsBack (reads : Token.ReadsBack declaration.valueText.toList
    (Token.squeeze false (Component.tokensAll declaration.value))) : declaration.IsFaithful := by
  obtain ⟨faultless, same⟩ := reads.tokenizeChars
  refine ⟨reads, faultless, ?_⟩
  have visible := List.rel_filter (p := Token.isVisible) (q := Token.isVisible)
    (fun _ _ same => iff_of_eq (congrArg (· = true) same.isVisible_eq)) same
  have last : [Token.endOfFile].filter Token.isVisible = [] := rfl
  rwa [List.filter_append, Token.filter_isVisible_squeeze, last, List.append_nil] at visible

/-- **The text of the value of a declaration is faithful just if its tokens do not run into each
other and trimming takes nothing from it.** -/
theorem isFaithful_iff (plain : '\\' ∉ text.toList)
    (accepted : parseDeclarations text = .ok declarations) (member : declaration ∈ declarations) :
    declaration.IsFaithful ↔
      Token.Apart [] (Token.squeeze false (Component.tokensAll declaration.value)) ∧
        Text.IsTrimmed (Component.serialize declaration.value).toList := by
  have lexemes := isLexeme_of_parseDeclarations plain accepted member
  have written := Component.toList_serialize lexemes
  have squeezed : ∀ token ∈ Token.squeeze false (Component.tokensAll declaration.value),
      token.IsLexeme := fun token inside => lexemes token (Token.mem_of_mem_squeeze inside)
  have trimmed : declaration.valueText.toList =
      Text.trimChars (Component.serialize declaration.value).toList := by
    rw [valueText, Text.trim, String.toList_ofList]
  rw [← Text.trimChars_eq_self_iff, ← trimmed, written, and_comm,
    ← Token.readsBack_iff squeezed]
  exact ⟨IsFaithful.reads, isFaithful_of_readsBack⟩

/-- A length and a word: `margin: 10px auto`. -/
theorem isFaithful_margin :
    let ten : Numeral := ⟨⟨false, 0x4024000000000000⟩, some 10⟩
    let margin : Declaration :=
      ⟨"margin", [.token (.dimension ten "px"), .token .whitespace, .token (.ident "auto")], false⟩
    '\\' ∉ "margin: 10px auto".toList ∧ parseDeclarations "margin: 10px auto" = .ok [margin] ∧
      margin.IsFaithful := by
  intro ten margin
  have plain : '\\' ∉ "margin: 10px auto".toList := by decide +kernel
  have lexed : tokensOf "margin: 10px auto" = .ok ([.ident "margin", .colon, .whitespace,
      .dimension ten "px", .whitespace, .ident "auto"] ++ [.endOfFile]) :=
    tokensOf_eq_ok_iff.mpr ⟨by decide +kernel, by decide +kernel⟩
  have spelt : Component.Spells [.dimension ten "px", .whitespace, .ident "auto"] margin.value :=
    .plain ⟨rfl, nofun, nofun, nofun⟩ (.plain ⟨rfl, nofun, nofun, nofun⟩
      (.plain ⟨rfl, nofun, nofun, nofun⟩ .nil))
  have spells : Spells _ margin :=
    @Spells.mk "margin" [] [.whitespace] _ _ _ _ (by simp) (by simp) spelt (by simp [margin])
      (by simp [margin]) (stripImportant_eq_iff.mp rfl)
  have accepted := parseDeclarations_eq_ok_iff.mpr ⟨_, lexed, .inl (.last spells)⟩
  refine ⟨plain, accepted, (isFaithful_iff plain accepted List.mem_cons_self).mpr ⟨?_, ?_⟩⟩
  · have writable : ten.IsWritable := fun none => absurd none (Option.some_ne_none 10)
    have unit : ten.literal.EndsBefore "px auto".toList :=
      ⟨by decide +kernel, fun _ => by decide +kernel, by decide +kernel⟩
    have space : ∀ c ∈ " auto".toList.head?, Scan.isNameChar c = false := by
      simp [Scan.isNameChar, Scan.isNameStart, Text.isAscii]
    have word : ∀ c ∈ "auto".toList.head?, Text.isSpace c = false := by simp [Text.isSpace]
    have nothing : ∀ c ∈ ([] : List Char).head?, Scan.isNameChar c = false ∧ c ≠ '(' := by simp
    have other : "auto" ≠ "--" := by decide
    exact ⟨⟨writable, unit, space⟩, word, ⟨nothing, fun closes => other closes.1⟩, trivial⟩
  · rw [← Text.trimChars_eq_self_iff]
    decide +kernel

/-- **Two numbers that are written as one**: the value of `x:1+5`. -/
theorem valueText_sum :
    let one : Numeral := ⟨⟨false, 0x3FF0000000000000⟩, some 1⟩
    let five : Numeral := ⟨⟨false, 0x4014000000000000⟩, some 5⟩
    let sum : Declaration := ⟨"x", [.token (.number one), .token (.number five)], false⟩
    '\\' ∉ "x:1+5".toList ∧ parseDeclarations "x:1+5" = .ok [sum] ∧ sum.valueText = "15" ∧
      ¬ List.Forall₂ Token.Same ((tokenize sum.valueText).tokens.filter Token.isVisible)
        ((Component.tokensAll sum.value).filter Token.isVisible) := by
  intro one five sum
  have lexed : tokensOf "x:1+5" = .ok ([.ident "x", .colon, .number one, .number five] ++
      [.endOfFile]) :=
    tokensOf_eq_ok_iff.mpr ⟨by decide +kernel, by decide +kernel⟩
  have spelt : Component.Spells [.number one, .number five] sum.value :=
    .plain ⟨rfl, nofun, nofun, nofun⟩ (.plain ⟨rfl, nofun, nofun, nofun⟩ .nil)
  have spells : Spells _ sum :=
    @Spells.mk "x" [] [] _ _ _ _ nofun nofun spelt (by simp [sum]) (by simp [sum])
      (stripImportant_eq_iff.mp rfl)
  have text : sum.valueText = "15" := by decide +kernel
  refine ⟨by decide +kernel, parseDeclarations_eq_ok_iff.mpr ⟨_, lexed, .inl (.last spells)⟩, text,
    fun same => ?_⟩
  have length := same.length_eq
  rw [text] at length
  exact absurd length (by decide +kernel)

end Declaration

end PagedHtml.Css
