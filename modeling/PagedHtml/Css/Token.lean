/-
**The tokens of a style sheet.**

A style sheet is read as a list of tokens whose last one marks the end. A token is written back as
style sheet text by `Token.css`; error messages show it by `Token.display`.
-/

import PagedHtml.Number.Shortest

namespace PagedHtml.Css

/-- The value of a numeric token, and its exact integer when the literal was a small enough whole
number. -/
structure Numeral where
  value : Number.Double
  integer : Option Int
  deriving DecidableEq, Repr

inductive Token where
  | ident (name : String)
  | function (name : String)
  | atKeyword (name : String)
  | hash (name : String)
  | string (text : String)
  /-- A string that a line break cut off. -/
  | badString
  | url (text : String)
  /-- An unquoted address with characters that do not belong in one. -/
  | badUrl
  | delim (char : Char)
  | number (numeral : Numeral)
  | percentage (numeral : Numeral)
  | dimension (numeral : Numeral) (unit : String)
  | whitespace
  | commentOpen
  | commentClose
  | colon
  | semicolon
  | comma
  | leftBracket
  | rightBracket
  | leftParen
  | rightParen
  | leftBrace
  | rightBrace
  | endOfFile
  deriving DecidableEq, Repr, Inhabited

namespace Numeral

/-- The numeral as text: the integer if there is one, else the shortest form of its value. -/
def css (n : Numeral) : String :=
  match n.integer with
  | some i => toString i
  | none => n.value.plain

end Numeral

namespace Token

/-- The token as style sheet text. Names are written as they are, without escapes, and a token that
stands for an error or for the end is written as nothing. -/
def css : Token → String
  | ident name => name
  | function name => name ++ "("
  | atKeyword name => "@" ++ name
  | hash name => "#" ++ name
  | string text => "\"" ++ text ++ "\""
  | url text => "url(" ++ text ++ ")"
  | delim char => String.singleton char
  | number numeral => numeral.css
  | percentage numeral => numeral.css ++ "%"
  | dimension numeral unit => numeral.css ++ unit
  | whitespace => " "
  | commentOpen => "<!--"
  | commentClose => "-->"
  | colon => ":"
  | semicolon => ";"
  | comma => ","
  | leftBracket => "["
  | rightBracket => "]"
  | leftParen => "("
  | rightParen => ")"
  | leftBrace => "\x7b"
  | rightBrace => "\x7d"
  | badString | badUrl | endOfFile => ""

/-- The token as error messages show it. -/
def display : Token → String
  | badString => "<bad-string>"
  | badUrl => "<bad-url>"
  | endOfFile => "<EOF>"
  | token => "'" ++ token.css ++ "'"

end Token

end PagedHtml.Css
