/-
**Values by key, in the order in which the keys first came.**

A key that comes again keeps its place, and its value is replaced (`get?_insert`).
-/

namespace PagedHtml

/-- Values by key, in the order in which the keys first came. -/
structure Keyed (α : Type) where
  entries : List (String × α)

namespace Keyed

variable {α : Type}

def empty : Keyed α := ⟨[]⟩

instance : Inhabited (Keyed α) := ⟨empty⟩

/-- Puts a value under a key in a list of values by key. -/
def insertEntry (key : String) (value : α) : List (String × α) → List (String × α)
  | [] => [(key, value)]
  | (other, old) :: rest =>
    if other = key then (other, value) :: rest else (other, old) :: insertEntry key value rest

def insert (keyed : Keyed α) (key : String) (value : α) : Keyed α :=
  ⟨insertEntry key value keyed.entries⟩

def get? (keyed : Keyed α) (key : String) : Option α :=
  (keyed.entries.find? fun entry => entry.1 == key).map Prod.snd

def size (keyed : Keyed α) : Nat := keyed.entries.length

def isEmpty (keyed : Keyed α) : Bool := keyed.entries.isEmpty

/-- The value that was put last under a key is the one found there. -/
theorem get?_insert (keyed : Keyed α) (key other : String) (value : α) :
    (keyed.insert key value).get? other = if other = key then some value else keyed.get? other := by
  obtain ⟨entries⟩ := keyed
  simp only [insert, get?]
  induction entries with
  | nil =>
    by_cases same : other = key
    · simp [insertEntry, same]
    · simp [insertEntry, same, Ne.symm same]
  | cons entry rest ih =>
    obtain ⟨first, old⟩ := entry
    by_cases same : first = key
    · subst same
      by_cases here : first = other
      · simp [insertEntry, here]
      · simp [insertEntry, here, Ne.symm here]
    · by_cases here : first = other
      · subst here
        simp [insertEntry, same]
      · simpa [insertEntry, same, here] using ih

end Keyed

end PagedHtml
