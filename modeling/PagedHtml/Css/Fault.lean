/-
**Why style sheet text is refused, and what a reader leaves unread.**

Readers of tokens are strict: the first thing out of place ends the reading with a `Fault`. A reader
returns an `Outcome`, which tells the tokens left unread whether it succeeds or not, so that another
reader can go on from there.
-/

import PagedHtml.Css.Component
import PagedHtml.Css.Token.Lexer

namespace PagedHtml.Css

/-- Why a piece of style sheet text is refused. -/
inductive Fault where
  | cutOff (fault : LexFault)
  | badString
  | badUrl
  /-- A rule has selectors and no block. -/
  | missingBlock (selectors : String)
  | unclosed (bracket : Bracket)
  /-- A closing brace stands where nothing is open. -/
  | strayClosingBrace
  | emptySelector
  /-- The name of a declaration is not followed by a colon. -/
  | missingColon (property : String)
  /-- Something other than a declaration stands in a list of declarations. -/
  | unexpected (found : Token)
  deriving DecidableEq, Repr

def Fault.message : Fault → String
  | cutOff fault => fault.message
  | badString => "malformed string"
  | badUrl => "malformed url"
  | missingBlock selectors => "missing '\x7b' after \"" ++ selectors ++ "\""
  | unclosed bracket => "missing '" ++ String.singleton bracket.closing ++ "'"
  | strayClosingBrace => "unexpected '\x7d'"
  | emptySelector => "empty selector"
  | missingColon property => "missing ':' after \"" ++ property ++ "\""
  | unexpected found => "unexpected " ++ found.display ++ " in declaration list"

/-- What a reader of tokens makes of them, and the tokens it leaves unread. -/
structure Outcome (α : Type) where
  result : Except Fault α
  rest : List Token

namespace Outcome

variable {α β : Type}

def ok (value : α) (rest : List Token) : Outcome α := ⟨.ok value, rest⟩

def refuse (fault : Fault) (rest : List Token) : Outcome α := ⟨.error fault, rest⟩

def map (f : α → β) (outcome : Outcome α) : Outcome β := ⟨outcome.result.map f, outcome.rest⟩

end Outcome

end PagedHtml.Css
