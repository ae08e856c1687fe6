/-
**Component values: tokens with their brackets matched.**

A component is a single token, a function with its arguments, or a bracketed block with its
contents. `serialize` writes components as style sheet text, where neighbouring spaces become one.
-/

import PagedHtml.Css.Token

namespace PagedHtml.Css

inductive Bracket where
  | brace
  | square
  | round
  deriving DecidableEq, Repr

namespace Bracket

def opening : Bracket → Char
  | brace => '\x7b'
  | square => '['
  | round => '('

def closing : Bracket → Char
  | brace => '\x7d'
  | square => ']'
  | round => ')'

def closingToken : Bracket → Token
  | brace => .rightBrace
  | square => .rightBracket
  | round => .rightParen

end Bracket

/-- A token, or a function or bracketed block with what it holds. -/
inductive Component where
  | token (token : Token)
  | function (name : String) (arguments : List Component)
  | block (bracket : Bracket) (contents : List Component)
  deriving Repr, Inhabited

namespace Component

def isWhitespace : Component → Bool
  | token .whitespace => true
  | _ => false

/-! ### Text

Components are written behind the characters written so far, which are held in reverse. -/

mutual

/-- Writes a component. A space is not written behind another. -/
def write (written : List Char) : Component → List Char
  | token .whitespace => if written.head? = some ' ' then written else ' ' :: written
  | token other => other.css.toList.reverse ++ written
  | function name arguments =>
    ')' :: writeAll ('(' :: (name.toList.reverse ++ written)) arguments
  | block bracket contents =>
    bracket.closing :: writeAll (bracket.opening :: written) contents

def writeAll (written : List Char) : List Component → List Char
  | [] => written
  | component :: rest => writeAll (write written component) rest

end

/-- Components as style sheet text. -/
def serialize (components : List Component) : String :=
  String.ofList (writeAll [] components).reverse

end Component

end PagedHtml.Css
