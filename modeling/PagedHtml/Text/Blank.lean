/-
**Blank characters, and the operations on text that look only at them.**

A character is blank when it has the Unicode property White_Space (`isBlank`). Text is trimmed of
blanks at both ends (`trim`), and a run of blanks collapses to one space (`collapse`).

`filter_collapseChars`: collapsing keeps exactly the characters that are not blank, in order.
-/

namespace PagedHtml.Text

/-- The 25 code points with the Unicode property White_Space. -/
def isBlank (c : Char) : Bool :=
  let n := c.toNat
  (0x09 ≤ n && n ≤ 0x0D) || n == 0x20 || n == 0x85 || n == 0xA0 || n == 0x1680 ||
  (0x2000 ≤ n && n ≤ 0x200A) || n == 0x2028 || n == 0x2029 || n == 0x202F || n == 0x205F ||
  n == 0x3000

/-! ### Trimming -/

/-- A list without its last elements that satisfy `p`. -/
def dropWhileEnd {α : Type} (p : α → Bool) (list : List α) : List α :=
  (list.reverse.dropWhile p).reverse

/-- Characters without the blanks at either end. -/
def trimChars (chars : List Char) : List Char :=
  dropWhileEnd isBlank (chars.dropWhile isBlank)

def trim (text : String) : String :=
  String.ofList (trimChars text.toList)

def isBlankText (text : String) : Bool :=
  text.toList.all isBlank

/-! ### Collapsing -/

/-- Writes each run of blanks as one space; `inRun` tells that the run's space is already written.
-/
def collapseFrom (inRun : Bool) : List Char → List Char
  | [] => []
  | c :: rest =>
    if isBlank c then
      if inRun then collapseFrom true rest else ' ' :: collapseFrom true rest
    else c :: collapseFrom false rest

/-- Characters with every run of blanks written as one space. -/
def collapseChars (chars : List Char) : List Char :=
  collapseFrom false chars

def collapse (text : String) : String :=
  String.ofList (collapseChars text.toList)

/-! ### Small facts -/

/-- The space that stands for a run is itself blank. -/
theorem isBlank_space : isBlank ' ' = true := by decide

theorem filter_collapseFrom (inRun : Bool) (chars : List Char) :
    (collapseFrom inRun chars).filter (fun c => !isBlank c) =
      chars.filter (fun c => !isBlank c) := by
  induction chars generalizing inRun with
  | nil => rfl
  | cons c rest ih =>
    by_cases blank : isBlank c = true
    · cases inRun <;> simp [collapseFrom, blank, ih, isBlank_space]
    · simp [collapseFrom, blank, ih]

theorem filter_collapseChars (chars : List Char) :
    (collapseChars chars).filter (fun c => !isBlank c) = chars.filter (fun c => !isBlank c) :=
  filter_collapseFrom false chars

end PagedHtml.Text
