/-
**The ASCII reading of text: letter case, spaces and words.**

Names of tags, schemes and keywords are compared by their ASCII letters alone (`equalsIgnoringCase`,
`afterIgnoringCase?`); every other character stands only for itself. A style sheet and a `class`
attribute are divided at the five ASCII spaces (`isSpace`, `words`).
-/

namespace PagedHtml.Text

/-- The five ASCII spaces: tab, line feed, form feed, carriage return and space. -/
def isSpace (c : Char) : Bool :=
  c == '\t' || c == '\n' || c == '\x0C' || c == '\r' || c == ' '

def isAscii (c : Char) : Bool := c.toNat < 128

/-- The text with its ASCII capitals made small. -/
def lower (text : String) : String :=
  String.ofList (text.toList.map Char.toLower)

def sameLetter (a b : Char) : Bool := a.toLower == b.toLower

/-- Equality of texts up to the case of ASCII letters. -/
def equalsIgnoringCase (a b : String) : Bool :=
  a.toList.map Char.toLower == b.toList.map Char.toLower

/-- What follows `lead` at the start of `chars`, letter case aside. -/
def afterIgnoringCase? : (lead chars : List Char) → Option (List Char)
  | [], chars => some chars
  | _ :: _, [] => none
  | l :: lead, c :: chars => if sameLetter l c then afterIgnoringCase? lead chars else none

/-- What follows `lead` at the start of `chars`, letter for letter. -/
def after? : (lead chars : List Char) → Option (List Char)
  | [], chars => some chars
  | _ :: _, [] => none
  | l :: lead, c :: chars => if l == c then after? lead chars else none

/-- Whether `text` starts with `lead`, letter case aside. -/
def startsIgnoringCase (lead text : String) : Bool :=
  (afterIgnoringCase? lead.toList text.toList).isSome

def startsWith (lead text : String) : Bool :=
  (after? lead.toList text.toList).isSome

/-! ### Dividing text -/

/-- The pieces of a list between the elements that satisfy `p`; there is always at least one. -/
def pieces {α : Type} (p : α → Bool) : List α → List (List α)
  | [] => [[]]
  | a :: rest =>
    if p a then [] :: pieces p rest
    else
      match pieces p rest with
      | [] => [[a]]
      | piece :: others => (a :: piece) :: others

/-- The maximal runs of characters other than ASCII spaces. -/
def words (text : String) : List String :=
  ((pieces isSpace text.toList).filter (fun word => !word.isEmpty)).map String.ofList

/-- A list divided at its first element that satisfies `p`, which belongs to neither part. -/
def divideAt? {α : Type} (p : α → Bool) : List α → Option (List α × List α)
  | [] => none
  | a :: rest =>
    if p a then some ([], rest)
    else (divideAt? p rest).map fun (before, after) => (a :: before, after)

/-- Characters divided at the first place where `mark` stands, which belongs to neither part. -/
def divideAtText? (mark : List Char) : List Char → Option (List Char × List Char)
  | [] => if mark.isEmpty then some ([], []) else none
  | c :: rest =>
    match after? mark (c :: rest) with
    | some after => some ([], after)
    | none => (divideAtText? mark rest).map fun (before, after) => (c :: before, after)

/-- The pieces are never none. -/
theorem pieces_ne_nil {α : Type} (p : α → Bool) (list : List α) : pieces p list ≠ [] := by
  cases list with
  | nil => simp [pieces]
  | cons a rest =>
    simp only [pieces]
    split
    · simp
    · split <;> simp

/-- Dividing a list loses only the dividing element. -/
theorem divideAt?_eq_some {α : Type} {p : α → Bool} {list before after : List α}
    (divided : divideAt? p list = some (before, after)) :
    ∃ a, p a = true ∧ list = before ++ a :: after := by
  induction list generalizing before with
  | nil => simp [divideAt?] at divided
  | cons a rest ih =>
    simp only [divideAt?] at divided
    split at divided
    · next holds =>
      obtain ⟨rfl, rfl⟩ := by simpa using divided
      exact ⟨a, holds, rfl⟩
    · obtain ⟨⟨first, second⟩, found, equal⟩ := Option.map_eq_some_iff.1 divided
      obtain ⟨rfl, rfl⟩ := by simpa using equal
      obtain ⟨b, holds, rfl⟩ := ih found
      exact ⟨b, holds, rfl⟩

end PagedHtml.Text
