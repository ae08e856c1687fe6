/-
**How components are spelt with tokens.**

`Component.Spells` says which tokens spell a list of components, without a reader: a token that
opens nothing spells itself, and what opens something, the spelling of some contents and the closer
spell a component that holds the contents. The contents hold no such closer of their own, whereas
closers of other brackets are tokens like any others.

* `readUntil_eq_ok_iff`: reading up to a token takes a spelling whose components do not start with
  such a token, and stops where it has to;
* `readBlock_eq_ok_iff`: reading a block takes a spelling and the closer.

Both rest on one lemma in each direction. Behind the spelling of some components a reader is where
it would be if it had read them (`read_append`), and a reader that succeeds inside something open
has read a spelling and its closer (`exists_spells_of_read`), by induction on the number of tokens.
-/

import PagedHtml.Css.Component.Reader

namespace PagedHtml.Css

/-- The token that a bracket opens with. -/
def Bracket.openingToken : Bracket → Token
  | brace => .leftBrace
  | square => .leftBracket
  | round => .leftParen

/-- A token that spells itself: one that opens nothing, and neither an error nor the end. -/
def Token.IsPlain (token : Token) : Prop :=
  token.opening? = none ∧ token ≠ .badString ∧ token ≠ .badUrl ∧ token ≠ .endOfFile

/-- A token that stands for no text: an error or the end. -/
def Token.IsVoid (token : Token) : Prop :=
  token = .badString ∨ token = .badUrl ∨ token = .endOfFile

theorem Token.IsVoid.not_isPlain {token : Token} (void : token.IsVoid) : ¬ token.IsPlain := by
  rintro ⟨-, notString, notUrl, notEnd⟩
  rcases void with same | same | same
  · exact notString same
  · exact notUrl same
  · exact notEnd same

theorem Token.IsVoid.opening? {token : Token} (void : token.IsVoid) : token.opening? = none := by
  rcases void with rfl | rfl | rfl <;> rfl

namespace Component

/-- **The components that tokens spell.** -/
inductive Spells : List Token → List Component → Prop
  | nil : Spells [] []
  | plain {token : Token} {tokens : List Token} {components : List Component} :
      token.IsPlain → Spells tokens components →
      Spells (token :: tokens) (.token token :: components)
  | nested {token : Token} {opening : Opening} {inside tokens : List Token}
      {contents components : List Component} :
      token.opening? = some opening → Spells inside contents →
      .token opening.bracket.closingToken ∉ contents → Spells tokens components →
      Spells (token :: (inside ++ opening.bracket.closingToken :: tokens))
        (opening.close contents :: components)

/-- The token that a component starts with. -/
def lead : Component → Token
  | token first => first
  | function name _ => .function name
  | block bracket _ => bracket.openingToken

/-! ### Tokens that open something -/

theorem lead_close {token : Token} {opening : Opening} (opens : token.opening? = some opening)
    (contents : List Component) : (opening.close contents).lead = token := by
  cases token <;> cases opens <;> rfl

theorem closingToken_isPlain (bracket : Bracket) : bracket.closingToken.IsPlain := by
  cases bracket <;> simp [Bracket.closingToken, Token.IsPlain, Token.opening?]

theorem close_ne_token (opening : Opening) (contents : List Component) (token : Token) :
    opening.close contents ≠ .token token := by
  cases opening <;> simp [Opening.close]

theorem ne_of_opening? {token : Token} (other : Token) {opening : Opening}
    (opens : token.opening? = some opening) (none : other.opening? = none) : token ≠ other := by
  rintro rfl
  rw [opens] at none
  cases none

/-! ### Spellings -/

/-- No token of a spelling stands for an error or the end. -/
theorem Spells.void_notMem {tokens : List Token} {components : List Component}
    (spells : Spells tokens components) {token : Token} (void : token.IsVoid) : token ∉ tokens := by
  induction spells with
  | nil => exact List.not_mem_nil
  | plain plain _ ih =>
    rw [List.mem_cons, not_or]
    exact ⟨fun same => void.not_isPlain (same ▸ plain), ih⟩
  | @nested _ opening _ _ _ _ opens _ _ _ ihInside ih =>
    have notOpening := ne_of_opening? token opens void.opening?
    have notCloser : token ≠ opening.bracket.closingToken := fun same =>
      void.not_isPlain (same ▸ closingToken_isPlain _)
    simp only [List.mem_cons, List.mem_append, not_or]
    exact ⟨notOpening.symm, ihInside, notCloser, ih⟩

theorem Spells.endOfFile_notMem {tokens : List Token} {components : List Component}
    (spells : Spells tokens components) : .endOfFile ∉ tokens :=
  spells.void_notMem (.inr (.inr rfl))

/-- A spelling starts with the token that its first component starts with. -/
theorem Spells.exists_lead {tokens : List Token} {first : Component} {components : List Component}
    (spells : Spells tokens (first :: components)) : ∃ rest, tokens = first.lead :: rest := by
  cases spells with
  | plain => exact ⟨_, rfl⟩
  | nested opens => exact ⟨_, by rw [lead_close opens]⟩

theorem Spells.eq_nil {tokens : List Token} (spells : Spells tokens []) : tokens = [] := by
  cases spells
  rfl

theorem opening?_openingToken (bracket : Bracket) :
    bracket.openingToken.opening? = some (.block bracket) := by
  cases bracket <;> rfl

/-- A block is spelt with its brackets around its contents. -/
theorem spells_block_iff {tokens : List Token} {bracket : Bracket} {contents : List Component} :
    Spells tokens [.block bracket contents] ↔
      ∃ inside, tokens = bracket.openingToken :: (inside ++ [bracket.closingToken]) ∧
        Spells inside contents ∧ .token bracket.closingToken ∉ contents := by
  constructor
  · generalize whole : [Component.block bracket contents] = components
    intro spells
    cases spells with
    | nil => cases whole
    | plain => cases whole
    | @nested token opening inside tokens held others opens spells closed further =>
      obtain ⟨same, rfl⟩ := List.cons.inj whole
      cases opening with
      | function name => cases same
      | block other =>
        obtain ⟨rfl, rfl⟩ := Component.block.inj same
        have lead := lead_close opens contents
        refine ⟨inside, ?_, spells, closed⟩
        rw [further.eq_nil, ← lead]
        rfl
  · rintro ⟨inside, rfl, spells, closed⟩
    exact .nested (opening?_openingToken bracket) spells closed .nil

/-! ### What a reader does at a token -/

section

variable {stops : Token → Bool} {stack : List Open} {done : List Component} {token : Token}
  {rest : List Token}

/-- That a component may stand where a reader is: with nothing open it starts with no token that
stops the reading, and otherwise it is not the closer. -/
def Fits (stops : Token → Bool) : List Open → Component → Prop
  | [], component => stops component.lead = false
  | inner :: _, component => component ≠ .token inner.opening.bracket.closingToken

theorem read_plain (plain : token.IsPlain) (fits : Fits stops stack (.token token)) :
    read stops stack done (token :: rest) = read stops stack (.token token :: done) rest := by
  obtain ⟨opens, notString, notUrl, notEnd⟩ := plain
  cases stack with
  | nil =>
    have goes : stops token = false := fits
    simp only [read, opens, notString, notUrl, notEnd, goes]
    simp
  | cons inner outer =>
    have inside : token ≠ inner.opening.bracket.closingToken := fun same => fits (by rw [same])
    simp only [read, opens, notString, notUrl, notEnd, inside]
    simp

theorem read_opening {opening : Opening} (opens : token.opening? = some opening)
    (fits : Fits stops stack (opening.close [])) :
    read stops stack done (token :: rest) = read stops (⟨opening, done⟩ :: stack) [] rest := by
  have notEnd := ne_of_opening? .endOfFile opens rfl
  cases stack with
  | nil =>
    have goes : stops token = false := by
      rw [← lead_close opens []]
      exact fits
    simp only [read, opens, notEnd, goes]
    simp
  | cons inner outer =>
    have inside := ne_of_opening? _ opens (closingToken_isPlain inner.opening.bracket).1
    simp only [read, opens, notEnd, inside]
    simp

theorem read_closing {inner : Open} {outer : List Open} :
    read stops (inner :: outer) done (inner.opening.bracket.closingToken :: rest) =
      read stops outer (inner.opening.close done.reverse :: inner.before) rest := by
  have notEnd := (closingToken_isPlain inner.opening.bracket).2.2.2
  simp only [read, notEnd]
  simp

end

/-! ### Reading a spelling -/

section

variable {stops : Token → Bool} {stack : List Open} {done components : List Component}
  {tokens rest : List Token}

theorem fits_close {opening : Opening} {contents : List Component} {token : Token}
    (opens : token.opening? = some opening) (fits : Fits stops stack (opening.close contents)) :
    Fits stops stack (opening.close []) := by
  cases stack with
  | nil =>
    rw [Fits, lead_close opens] at fits ⊢
    exact fits
  | cons inner outer => exact close_ne_token opening [] _

/-- What holds no closer fits inside. -/
theorem fits_of_notMem (inner : Open) {outer : List Open} {contents : List Component}
    (closed : .token inner.opening.bracket.closingToken ∉ contents) :
    ∀ component ∈ contents, Fits stops (inner :: outer) component := by
  intro component member same
  rw [same] at member
  exact closed member

/-- **Behind a spelling a reader is where it would be if it had read the components.** -/
theorem read_append (spells : Spells tokens components)
    (fits : ∀ component ∈ components, Fits stops stack component) :
    read stops stack done (tokens ++ rest) =
      read stops stack (components.reverse ++ done) rest := by
  induction spells generalizing stack done rest with
  | nil => rfl
  | plain plain _ ih =>
    obtain ⟨here, later⟩ := List.forall_mem_cons.mp fits
    rw [List.cons_append, read_plain plain here, ih later, List.reverse_cons,
      List.append_assoc]
    rfl
  | @nested token opening inside tokens contents components opens _ closed _ ihInside ih =>
    obtain ⟨here, later⟩ := List.forall_mem_cons.mp fits
    rw [List.cons_append, List.append_assoc, List.cons_append,
      read_opening opens (fits_close opens here),
      ihInside (fits_of_notMem ⟨opening, done⟩ closed), read_closing, ih later,
      List.append_nil, List.reverse_reverse, List.reverse_cons, List.append_assoc]
    rfl

/-- Where reading has to stop: at the end, and before a token that stops it. -/
def Stopped (stops : Token → Bool) (rest : List Token) : Prop :=
  ∀ next ∈ rest.head?, next = .endOfFile ∨ stops next = true

theorem read_stopped (stopped : Stopped stops rest) :
    read stops [] done rest = .ok done.reverse rest := by
  cases rest with
  | nil => rfl
  | cons next rest => exact if_pos (stopped next rfl)

/-- A reader inside something open goes on only over plain tokens, once openers and the closer are
set aside. -/
theorem isPlain_of_read {inner : Open} {outer : List Open} {result : List Component}
    {next : Token} {left : List Token}
    (accepted : read stops (inner :: outer) done (next :: rest) = .ok result left)
    (continues : next ≠ inner.opening.bracket.closingToken) (opens : next.opening? = none) :
    next.IsPlain := by
  have refused (fault : Fault) (left' : List Token) :
      (Outcome.refuse fault left' : Outcome (List Component)) ≠ .ok result left := nofun
  refine ⟨opens, ?_, ?_, ?_⟩ <;>
  · rintro rfl
    simp only [read, continues, opens] at accepted
    exact refused _ _ accepted

/-- The same with nothing open, where it has not come to a stop. -/
theorem isPlain_of_read_top {result : List Component} {next : Token} {left : List Token}
    (accepted : read stops [] done (next :: rest) = .ok result left)
    (continues : ¬ (next = .endOfFile ∨ stops next = true)) (opens : next.opening? = none) :
    next.IsPlain := by
  have refused (fault : Fault) (left' : List Token) :
      (Outcome.refuse fault left' : Outcome (List Component)) ≠ .ok result left := nofun
  rw [read, if_neg continues, opens] at accepted
  refine ⟨opens, ?_, ?_, fun isEnd => continues (.inl isEnd)⟩ <;>
  · rintro rfl
    exact refused _ _ accepted

/-- **A reader that succeeds inside something open has read a spelling and the closer.** -/
theorem exists_spells_of_read {inner : Open} {outer : List Open} {result : List Component}
    {left : List Token} (accepted : read stops (inner :: outer) done tokens = .ok result left) :
    ∃ inside contents rest, tokens = inside ++ inner.opening.bracket.closingToken :: rest ∧
      Spells inside contents ∧ .token inner.opening.bracket.closingToken ∉ contents := by
  induction size : tokens.length using Nat.strongRecOn generalizing tokens inner outer done with
  | ind size ih =>
    subst size
    cases tokens with
    | nil => cases accepted
    | cons next rest =>
      by_cases closes : next = inner.opening.bracket.closingToken
      · exact ⟨[], [], rest, by rw [closes]; rfl, .nil, by simp⟩
      · cases opens : next.opening? with
        | some opening =>
          rw [read_opening opens (by exact close_ne_token opening [] _)] at accepted
          -- First what is opened here is closed, then what was open before.
          obtain ⟨inside, contents, further, rfl, spells, closed⟩ :=
            ih rest.length (Nat.lt_succ_self _) accepted rfl
          rw [read_append spells (fits_of_notMem _ closed), read_closing] at accepted
          obtain ⟨more, others, last, rfl, spellsMore, closedMore⟩ :=
            ih further.length (by simp; omega) accepted rfl
          refine ⟨_, _, last, ?_, .nested opens spells closed spellsMore, ?_⟩
          · simp
          · rw [List.mem_cons, not_or]
            exact ⟨(close_ne_token _ _ _).symm, closedMore⟩
        | none =>
          have plain := isPlain_of_read accepted closes opens
          have fits : Fits stops (inner :: outer) (.token next) := by
            intro same
            exact closes (Component.token.inj same)
          rw [read_plain plain fits] at accepted
          obtain ⟨inside, contents, last, rfl, spells, closed⟩ :=
            ih rest.length (Nat.lt_succ_self _) accepted rfl
          refine ⟨next :: inside, .token next :: contents, last, rfl, .plain plain spells, ?_⟩
          rw [List.mem_cons, not_or]
          exact ⟨fun same => closes (Component.token.inj same).symm, closed⟩

/-- **A reader that succeeds with nothing open has read a spelling up to a stop.** -/
theorem exists_spells_of_read_top {result : List Component} {left : List Token}
    (accepted : read stops [] done tokens = .ok result left) :
    ∃ spelling components rest, tokens = spelling ++ rest ∧ Spells spelling components ∧
      (∀ component ∈ components, stops component.lead = false) ∧ Stopped stops rest := by
  induction size : tokens.length using Nat.strongRecOn generalizing tokens done with
  | ind size ih =>
    subst size
    cases tokens with
    | nil => exact ⟨[], [], [], rfl, .nil, by simp, by simp [Stopped]⟩
    | cons next rest =>
      by_cases stopping : next = .endOfFile ∨ stops next = true
      · refine ⟨[], [], next :: rest, rfl, .nil, by simp, ?_⟩
        intro first same
        cases Option.some.inj same
        exact stopping
      · have goes : stops next = false := by
          rw [not_or, Bool.not_eq_true] at stopping
          exact stopping.2
        cases opens : next.opening? with
        | some opening =>
          have fits (contents : List Component) : Fits stops [] (opening.close contents) := by
            rw [Fits, lead_close opens]
            exact goes
          rw [read_opening opens (fits [])] at accepted
          obtain ⟨inside, contents, further, rfl, spells, closed⟩ := exists_spells_of_read accepted
          rw [read_append spells (fits_of_notMem _ closed), read_closing] at accepted
          obtain ⟨more, others, last, rfl, spellsMore, goesMore, stopped⟩ :=
            ih further.length (by simp; omega) accepted rfl
          refine ⟨_, _, last, ?_, .nested opens spells closed spellsMore, ?_, stopped⟩
          · simp
          · exact List.forall_mem_cons.mpr ⟨fits contents, goesMore⟩
        | none =>
          have plain := isPlain_of_read_top accepted stopping opens
          rw [read_plain plain (show Fits stops [] (.token next) from goes)] at accepted
          obtain ⟨spelling, components, last, rfl, spells, goesMore, stopped⟩ :=
            ih rest.length (Nat.lt_succ_self _) accepted rfl
          exact ⟨next :: spelling, .token next :: components, last, rfl, .plain plain spells,
            List.forall_mem_cons.mpr ⟨goes, goesMore⟩, stopped⟩

/-! ### The readers of components -/

/-- **Reading up to a token takes a spelling and stops where it has to.** -/
theorem readUntil_eq_ok_iff :
    readUntil stops tokens = .ok components rest ↔
      ∃ spelling, tokens = spelling ++ rest ∧ Spells spelling components ∧
        (∀ component ∈ components, stops component.lead = false) ∧ Stopped stops rest := by
  have reads {spelling : List Token} {components : List Component} {rest : List Token}
      (spells : Spells spelling components)
      (goes : ∀ component ∈ components, stops component.lead = false)
      (stopped : Stopped stops rest) :
      readUntil stops (spelling ++ rest) = .ok components rest := by
    have fits : ∀ component ∈ components, Fits stops [] component := goes
    rw [readUntil, read_append spells fits, read_stopped stopped, List.append_nil,
      List.reverse_reverse]
  constructor
  · intro accepted
    obtain ⟨spelling, found, left, rfl, spells, goes, stopped⟩ :=
      exists_spells_of_read_top accepted
    rw [reads spells goes stopped] at accepted
    cases accepted
    exact ⟨spelling, rfl, spells, goes, stopped⟩
  · rintro ⟨spelling, rfl, spells, goes, stopped⟩
    exact reads spells goes stopped

/-- **Reading a block takes a spelling and the closer.** -/
theorem readBlock_eq_ok_iff {bracket : Bracket} :
    readBlock bracket tokens = .ok components rest ↔
      ∃ inside contents, tokens = inside ++ bracket.closingToken :: rest ∧ Spells inside contents ∧
        .token bracket.closingToken ∉ contents ∧ components = [.block bracket contents] := by
  have reads {inside : List Token} {contents : List Component} {rest : List Token}
      (spells : Spells inside contents) (closed : .token bracket.closingToken ∉ contents) :
      readBlock bracket (inside ++ bracket.closingToken :: rest) =
        .ok [.block bracket contents] rest := by
    have closing : read (fun _ => true) [⟨.block bracket, []⟩] contents.reverse
        (bracket.closingToken :: rest) = _ := read_closing
    rw [readBlock, read_append spells (fits_of_notMem ⟨.block bracket, []⟩ closed),
      List.append_nil]
    refine closing.trans ?_
    rw [read_stopped (fun _ _ => .inr rfl), List.reverse_reverse]
    rfl
  constructor
  · intro accepted
    obtain ⟨inside, contents, left, rfl, spells, closed⟩ := exists_spells_of_read accepted
    simp only [Opening.bracket] at accepted closed ⊢
    rw [reads spells closed] at accepted
    cases accepted
    exact ⟨inside, contents, rfl, spells, closed, rfl⟩
  · rintro ⟨inside, contents, rfl, spells, closed, rfl⟩
    exact reads spells closed

end

end Component

end PagedHtml.Css
