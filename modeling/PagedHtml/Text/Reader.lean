/-
**Readers: taking the parts of a text from its front.**

A `Reader` takes a value from the front of some characters, or fails. The readers here take fixed
texts, runs of characters and what stands before a mark; `iterate` repeats a step until it is done.
-/

import PagedHtml.Text.Ascii

namespace PagedHtml.Text

/-- What takes a value from the front of some characters, or fails. -/
abbrev Reader := StateT (List Char) Option

namespace Reader

def atEnd : Reader Bool := return (← get).isEmpty

/-- Whether `text` stands at the front, where it is left. -/
def sees (text : String) : Reader Bool := return (after? text.toList (← get)).isSome

/-- Takes `text` if it stands at the front, and says whether it did. -/
def accept (text : String) : Reader Bool := do
  match after? text.toList (← get) with
  | some rest => set rest; return true
  | none => return false

/-- Takes `text`, which has to stand at the front. -/
def expect (text : String) : Reader Unit := do
  guard (← accept text)

/-- Takes the characters up to the first that does not satisfy `p`. -/
def takeWhile (p : Char → Bool) : Reader (List Char) :=
  modifyGet fun chars => (chars.takeWhile p, chars.dropWhile p)

/-- Takes the characters before the first `mark`, and the mark. -/
def upTo (mark : String) : Reader (List Char) := do
  let (before, rest) ← divideAtText? mark.toList (← get)
  set rest
  return before

/-- A text between two quotation marks of one kind. -/
def quoted : Reader (List Char) := do
  if ← accept "\"" then upTo "\""
  else
    expect "'"
    upTo "'"

/-- Repeats a step until it is done, at most once more for each of some characters. -/
def rounds {σ : Type} (step : σ → Reader (ForInStep σ)) : List Char → σ → Reader σ
  | [], state => do
    match ← step state with
    | .done state => return state
    | .yield _ => failure
  | _ :: chars, state => do
    match ← step state with
    | .done state => return state
    | .yield state => rounds step chars state

/-- Repeats a step until it is done. Each round but the last takes a character at least, so there
are never more rounds than characters and one. -/
def iterate {σ : Type} (step : σ → Reader (ForInStep σ)) (state : σ) : Reader σ := do
  rounds step (← get) state

end Reader

end PagedHtml.Text
