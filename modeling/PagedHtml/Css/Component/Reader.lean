/-
**Reading components from tokens.**

`Component.read` matches brackets with a stack of what is open. It consumes one token after another,
so its recursion is on the tokens. With nothing open it ends before the mark of the end and before
any token that the caller names; inside a bracket only the matching closer ends it, and every other
token, closers of other brackets included, belongs to the contents.
-/

import PagedHtml.Css.Fault

namespace PagedHtml.Css

/-- What opens a component that holds others. -/
inductive Opening where
  | function (name : String)
  | block (bracket : Bracket)
  deriving DecidableEq, Repr

namespace Opening

def bracket : Opening → Bracket
  | function _ => .round
  | block bracket => bracket

/-- The finished component. -/
def close (contents : List Component) : Opening → Component
  | function name => .function name contents
  | block bracket => .block bracket contents

end Opening

def Token.opening? : Token → Option Opening
  | .function name => some (.function name)
  | .leftBrace => some (.block .brace)
  | .leftBracket => some (.block .square)
  | .leftParen => some (.block .round)
  | _ => none

/-- Something that is open, with the components that stand before it, the latest first. -/
structure Open where
  opening : Opening
  before : List Component

namespace Component

/-- Reads components behind those that are `done`, the latest of which is first, inside the things
that are open, the innermost of which is first. -/
def read (stops : Token → Bool) (stack : List Open) (done : List Component) :
    List Token → Outcome (List Component)
  | [] =>
    match stack with
    | [] => .ok done.reverse []
    | inner :: _ => .refuse (.unclosed inner.opening.bracket) []
  | next :: rest =>
    match stack with
    | [] =>
      if next = .endOfFile ∨ stops next then .ok done.reverse (next :: rest)
      else
        match next.opening? with
        | some opening => read stops [⟨opening, done⟩] [] rest
        | none =>
          if next = .badString then .refuse .badString rest
          else if next = .badUrl then .refuse .badUrl rest
          else read stops [] (token next :: done) rest
    | inner :: outer =>
      if next = .endOfFile then .refuse (.unclosed inner.opening.bracket) (next :: rest)
      else if next = inner.opening.bracket.closingToken then
        read stops outer (inner.opening.close done.reverse :: inner.before) rest
      else
        match next.opening? with
        | some opening => read stops (⟨opening, done⟩ :: inner :: outer) [] rest
        | none =>
          if next = .badString then .refuse .badString rest
          else if next = .badUrl then .refuse .badUrl rest
          else read stops (inner :: outer) (token next :: done) rest

/-- Reads components up to a token that stops the reading. -/
def readUntil (stops : Token → Bool) (tokens : List Token) : Outcome (List Component) :=
  read stops [] [] tokens

/-- Reads the contents of a bracket that is already open, and its closer. -/
def readBlock (bracket : Bracket) (tokens : List Token) : Outcome (List Component) :=
  read (fun _ => true) [⟨.block bracket, []⟩] [] tokens

/-- What reading leaves is the end of the tokens. -/
theorem read_suffix (stops : Token → Bool) (stack : List Open) (done : List Component)
    (tokens : List Token) : (read stops stack done tokens).rest <:+ tokens := by
  induction tokens generalizing stack done with
  | nil => cases stack <;> exact List.suffix_rfl
  | cons next rest ih =>
    have step (stack : List Open) (done : List Component) :
        (read stops stack done rest).rest <:+ next :: rest :=
      (ih stack done).trans (List.suffix_cons next rest)
    have refused : rest <:+ next :: rest := List.suffix_cons next rest
    cases stack with
    | nil =>
      simp only [read]
      split
      · exact List.suffix_rfl
      · split
        · exact step _ _
        · split
          · exact refused
          · split
            · exact refused
            · exact step _ _
    | cons inner outer =>
      simp only [read]
      split
      · exact List.suffix_rfl
      · split
        · exact step _ _
        · split
          · exact step _ _
          · split
            · exact refused
            · split
              · exact refused
              · exact step _ _

theorem readUntil_suffix (stops : Token → Bool) (tokens : List Token) :
    (readUntil stops tokens).rest <:+ tokens :=
  read_suffix stops [] [] tokens

theorem readBlock_suffix (bracket : Bracket) (tokens : List Token) :
    (readBlock bracket tokens).rest <:+ tokens :=
  read_suffix _ _ _ tokens

end Component

end PagedHtml.Css
