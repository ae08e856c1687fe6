/-
**What the end of a style sheet cuts off.**

A fault is recorded only for the last stretch of a text: a comment that never closes, or a string or
an address that goes on to the end. So a text has one fault at most. Malformed strings and addresses
record none; they are tokens of their own, which neither rules nor declarations spell, so that such
a text is refused all the same.

* `Lexer.faultAtEnd_tokenAt`: a token with a fault is cut off, and nothing is behind it;
* `Divides.whole_or_cutOff`: no stretch of a text has a fault, or its last stretch alone;
* `parseRules_of_void`, `parseDeclarations_of_void`: malformed tokens are refused wherever they
  stand;
* `tokenize_cutOff`: all of this for the text of a style sheet.
-/

import PagedHtml.Css.Parser
import PagedHtml.Proofs.Css.Embedding
import PagedHtml.Proofs.Css.Joining
import PagedHtml.Proofs.Css.Stretches

namespace PagedHtml.Css

/-! ### Strings and addresses -/

namespace Scan

/-- A string that is cut off goes on to the end. -/
theorem takeString_cutOff {quote : Char} {chars : List Char}
    (cutOff : (takeString quote chars).ending = .cutOff) : (takeString quote chars).rest = [] := by
  fun_induction takeString quote chars with
  | case1 | case4 => rfl
  | case2 | case3 => cases cutOff
  | case5 _ _ _ ih | case6 _ _ _ _ _ _ ih | case7 _ _ _ _ _ ih => exact ih cutOff

/-- An address that is cut off goes on to the end. -/
theorem takeAddress_cutOff {chars : List Char} (cutOff : (takeAddress chars).ending = .cutOff) :
    (takeAddress chars).rest = [] := by
  fun_induction takeAddress chars with
  | case1 | case3 => rfl
  | case2 | case4 | case5 | case6 | case8 => cases cutOff
  | case7 _ _ _ _ _ _ ih | case9 _ _ _ _ _ _ ih => exact ih cutOff

end Scan

/-! ### Tokens -/

/-- **The token that is read of what the end of a text cuts off**: none of a comment. -/
inductive CutsOff : LexFault → Option Token → Prop
  | comment : CutsOff .unterminatedComment none
  | string (text : String) : CutsOff .unterminatedString (some (.string text))
  | url (text : String) : CutsOff .unterminatedUrl (some (.url text))

namespace Lexer

/-- That a fault is recorded only for a token that is cut off, with nothing behind it. -/
def Step.FaultAtEnd (step : Step) : Prop :=
  ∀ fault, step.fault = some fault → CutsOff fault (some step.token) ∧ step.rest = []

theorem faultAtEnd_whole (token : Token) (rest : List Char) :
    (Step.mk token none rest).FaultAtEnd := nofun

theorem faultAtEnd_stringToken (quote : Char) (chars : List Char) :
    (stringToken quote chars).FaultAtEnd := by
  rintro fault recorded
  cases ending : (Scan.takeString quote chars).ending with
  | closed | broken =>
    simp only [stringToken, ending] at recorded
    cases recorded
  | cutOff =>
    simp only [stringToken, ending] at recorded ⊢
    obtain rfl := Option.some.inj recorded
    exact ⟨.string _, Scan.takeString_cutOff ending⟩

theorem faultAtEnd_addressToken (chars : List Char) : (addressToken chars).FaultAtEnd := by
  rintro fault recorded
  cases ending : (Scan.takeAddress chars).ending with
  | closed | broken =>
    simp only [addressToken, ending] at recorded
    cases recorded
  | cutOff =>
    simp only [addressToken, ending] at recorded ⊢
    obtain rfl := Option.some.inj recorded
    exact ⟨.url _, Scan.takeAddress_cutOff ending⟩

/-- **A token with a fault is cut off**, and nothing is behind it. -/
theorem faultAtEnd_tokenAt (c : Char) (rest : List Char) : (tokenAt c rest).FaultAtEnd := by
  have numeric (chars : List Char) : (numericToken chars).FaultAtEnd := by
    rw [numericToken_eq]
    simp only
    split_ifs <;> exact faultAtEnd_whole _ _
  have named (chars : List Char) : (namedToken chars).FaultAtEnd := by
    rw [namedToken_eq]
    simp only
    split_ifs
    · exact faultAtEnd_whole _ _
    · exact faultAtEnd_addressToken _
    · exact faultAtEnd_whole _ _
    · exact faultAtEnd_whole _ _
  have hash (chars : List Char) : (hashToken chars).FaultAtEnd := by
    simp only [hashToken]
    split_ifs <;> exact faultAtEnd_whole _ _
  unfold tokenAt
  split
  · exact faultAtEnd_whole _ _
  · split_ifs
    · exact faultAtEnd_whole _ _
    · exact faultAtEnd_stringToken _ _
    · exact hash _
    · exact numeric _
    · exact faultAtEnd_whole _ _
    · exact faultAtEnd_whole _ _
    · exact faultAtEnd_whole _ _
    · exact named _
    · exact faultAtEnd_whole _ _

end Lexer

/-! ### Texts -/

namespace Divides

variable {chars : List Char} {stretches : List Stretch}

/-- **A stretch with a fault is the last one.** -/
theorem cutsOff {stretch : Stretch} {others : List Stretch}
    (divides : Divides chars (stretch :: others)) {fault : LexFault}
    (recorded : stretch.fault? = some fault) : CutsOff fault stretch.token? ∧ others = [] := by
  cases divides with
  | comment => cases recorded
  | openComment =>
    obtain rfl := Option.some.inj recorded
    exact ⟨.comment, rfl⟩
  | @token c more rest token _ _ _ taken dividesOthers =>
    have ends := Lexer.faultAtEnd_tokenAt c (more ++ rest)
    rw [taken] at ends
    obtain ⟨cutOff, rfl⟩ := ends fault recorded
    cases dividesOthers
    exact ⟨cutOff, rfl⟩

/-- **No stretch of a text has a fault, or its last one alone.** -/
theorem faults_cases (divides : Divides chars stretches) :
    (∀ stretch ∈ stretches, stretch.fault? = none) ∨
      ∃ before last fault, stretches = before ++ [last] ∧ last.fault? = some fault ∧
        CutsOff fault last.token? ∧ ∀ stretch ∈ before, stretch.fault? = none := by
  induction stretches generalizing chars with
  | nil => exact .inl nofun
  | cons stretch others ih =>
    rcases recorded : stretch.fault? with _ | fault
    · obtain ⟨rest, -, dividesOthers⟩ := @Divides.behind _ [stretch] others divides
      rcases ih dividesOthers with none | ⟨before, last, fault, rfl, recordedLast, cutOff, none⟩
      · exact .inl (List.forall_mem_cons.mpr ⟨recorded, none⟩)
      · exact .inr ⟨stretch :: before, last, fault, rfl, recordedLast, cutOff,
          List.forall_mem_cons.mpr ⟨recorded, none⟩⟩
    · obtain ⟨cutOff, rfl⟩ := divides.cutsOff recorded
      exact .inr ⟨[], stretch, fault, rfl, recorded, cutOff, nofun⟩

/-- **A text is whole, or cut off in its last stretch**, of which the last token before the end is
read unless it is a comment. -/
theorem whole_or_cutOff (divides : Divides chars stretches) :
    (tokenizeChars chars).faults = [] ∧ (∀ stretch ∈ stretches, stretch.fault? = none) ∨
      ∃ before last fault, stretches = before ++ [last] ∧ last.fault? = some fault ∧
        (∀ stretch ∈ before, stretch.fault? = none) ∧ (tokenizeChars chars).faults = [fault] ∧
        CutsOff fault last.token? ∧ (tokenizeChars chars).tokens =
          before.filterMap Stretch.token? ++ last.token?.toList ++ [.endOfFile] := by
  rw [divides.tokenizeChars_eq]
  rcases divides.faults_cases with none | ⟨before, last, fault, rfl, recorded, cutOff, none⟩
  · exact .inl ⟨List.filterMap_eq_nil_iff.mpr none, none⟩
  · have wholeBefore : before.filterMap Stretch.fault? = [] := List.filterMap_eq_nil_iff.mpr none
    refine .inr ⟨before, last, fault, rfl, recorded, none, ?_, cutOff, ?_⟩
    · simp [wholeBefore, recorded]
    · cases read : last.token? <;> simp [read]

end Divides

/-! ### Refusals -/

variable {text : String} {token : Token}

/-- A text that is cut off is refused for the first of its faults. -/
theorem ofText_eq_error_iff {fault : Fault} :
    Parser.ofText text = .error fault ↔
      ∃ cut, fault = .cutOff cut ∧ (tokenize text).faults.head? = some cut := by
  rw [Parser.ofText, tokensOf]
  cases (tokenize text).faults with
  | nil => simp [Except.map]
  | cons first others => simp [Except.map, eq_comm]

theorem parseRules_of_ofText {fault : Fault} (refused : Parser.ofText text = .error fault) :
    parseRules text = .error fault := by
  rw [parseRules_eq, refused]
  rfl

theorem parseDeclarations_of_ofText {fault : Fault} (refused : Parser.ofText text = .error fault) :
    parseDeclarations text = .error fault := by
  rw [parseDeclarations_eq, refused]
  rfl

/-- Rules have no malformed tokens. -/
theorem parseRules_of_void (malformed : token = .badString ∨ token = .badUrl)
    (member : token ∈ (tokenize text).tokens) : ∃ fault, parseRules text = .error fault := by
  rcases parsed : parseRules text with fault | rules
  · exact ⟨fault, rfl⟩
  · have spells := (parseRules_eq_ok_iff.mp parsed).spellsAll
    refine absurd member (spells.void_notMem ?_ ?_)
    · exact malformed.imp_right .inl
    · rcases malformed with rfl | rfl <;> nofun

/-- Declarations have no malformed tokens. -/
theorem parseDeclarations_of_void (malformed : token = .badString ∨ token = .badUrl)
    (member : token ∈ (tokenize text).tokens) : ∃ fault, parseDeclarations text = .error fault := by
  rcases parsed : parseDeclarations text with fault | declarations
  · exact ⟨fault, rfl⟩
  · obtain ⟨tokens, lexed, spells⟩ := parseDeclarations_eq_ok_iff.mp parsed
    obtain ⟨-, split⟩ := tokensOf_eq_ok_iff.mp lexed
    have void : token.IsVoid := malformed.imp_right .inl
    have notEnd : token ≠ .endOfFile := by rcases malformed with rfl | rfl <;> nofun
    rw [split, List.mem_append, List.mem_singleton, or_iff_left notEnd] at member
    rcases spells with spells | spells
    · exact absurd member (spells.void_notMem void)
    · exact absurd member (spells.void_notMem void)

/-! ### Main statement -/

/-- **A text records one fault at most, for what its end cuts off**: its last stretch, which is a
comment, or the last token before the end. A reader refuses the text for that fault, and a text
without one for a malformed string or address, wherever it stands. -/
theorem tokenize_cutOff (text : String) :
    (tokenize text).faults.length ≤ 1 ∧
      (∃ stretches, Divides text.toList stretches ∧
        ((tokenize text).faults = [] ∧ (∀ stretch ∈ stretches, stretch.fault? = none) ∨
          ∃ before last fault, stretches = before ++ [last] ∧ last.fault? = some fault ∧
            (∀ stretch ∈ before, stretch.fault? = none) ∧ (tokenize text).faults = [fault] ∧
            CutsOff fault last.token? ∧ (tokenize text).tokens =
              before.filterMap Stretch.token? ++ last.token?.toList ++ [.endOfFile])) ∧
      (∀ fault, Parser.ofText text = .error fault ↔
        ∃ cut, fault = .cutOff cut ∧ (tokenize text).faults = [cut]) ∧
      (∀ fault ∈ (tokenize text).faults, parseRules text = .error (.cutOff fault) ∧
        parseDeclarations text = .error (.cutOff fault)) ∧
      ∀ token ∈ (tokenize text).tokens, token = .badString ∨ token = .badUrl →
        (tokenize text).faults = [] →
          ∃ fault other,
            parseRules text = .error fault ∧ parseDeclarations text = .error other := by
  obtain ⟨stretches, divides⟩ := exists_divides text.toList
  have cases := divides.whole_or_cutOff
  have single : (tokenize text).faults = [] ∨ ∃ fault, (tokenize text).faults = [fault] := by
    rcases cases with ⟨none, -⟩ | ⟨_, _, fault, -, -, -, one, -⟩
    · exact .inl none
    · exact .inr ⟨fault, one⟩
  have refused (fault : Fault) : Parser.ofText text = .error fault ↔
      ∃ cut, fault = .cutOff cut ∧ (tokenize text).faults = [cut] := by
    rw [ofText_eq_error_iff]
    rcases single with none | ⟨other, one⟩ <;> simp [*]
  refine ⟨?_, ⟨stretches, divides, cases⟩, refused, ?_, ?_⟩
  · rcases single with none | ⟨other, one⟩ <;> simp [*]
  · intro fault member
    rcases single with none | ⟨other, one⟩
    · rw [none] at member
      cases member
    · obtain rfl : fault = other := by simpa [one] using member
      have cutOff := (refused (.cutOff fault)).mpr ⟨fault, rfl, one⟩
      exact ⟨parseRules_of_ofText cutOff, parseDeclarations_of_ofText cutOff⟩
  · intro token member malformed _
    obtain ⟨fault, rules⟩ := parseRules_of_void malformed member
    obtain ⟨other, declarations⟩ := parseDeclarations_of_void malformed member
    exact ⟨fault, other, rules, declarations⟩

/-- An address in nested brackets that is malformed up to the end, and one that the end cuts off. -/
theorem tokenize_cutOff_nested :
    (.badUrl ∈ (tokenize "a\x7bb:[(url(c d").tokens ∧ (tokenize "a\x7bb:[(url(c d").faults = [] ∧
        ∃ fault other, parseRules "a\x7bb:[(url(c d" = .error fault ∧
          parseDeclarations "a\x7bb:[(url(c d" = .error other) ∧
      .unterminatedUrl ∈ (tokenize "a\x7bb:[(url(c").faults ∧
        parseRules "a\x7bb:[(url(c" = .error (.cutOff .unterminatedUrl) := by
  have malformed : .badUrl ∈ (tokenize "a\x7bb:[(url(c d").tokens := by decide +kernel
  have whole : (tokenize "a\x7bb:[(url(c d").faults = [] := by decide +kernel
  have cutOff : .unterminatedUrl ∈ (tokenize "a\x7bb:[(url(c").faults := by decide +kernel
  obtain ⟨-, -, -, -, refused⟩ := tokenize_cutOff "a\x7bb:[(url(c d"
  obtain ⟨-, -, -, refusedCutOff, -⟩ := tokenize_cutOff "a\x7bb:[(url(c"
  exact ⟨⟨malformed, whole, refused _ malformed (.inr rfl) whole⟩, cutOff,
    (refusedCutOff _ cutOff).1⟩

end PagedHtml.Css
