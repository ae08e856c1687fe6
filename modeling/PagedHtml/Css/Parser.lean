/-
**A parser: tokens, and the place up to which they are read.**

A parser is asked for the rules or for the declarations that follow its place, one request after
another. Each request starts where the one before it stopped, whether that one succeeded or not
(`Parser.rest_ask`). `parseRules` and `parseDeclarations` ask a new parser once.
-/

import PagedHtml.Css.Rule

namespace PagedHtml.Css

/-- What a parser can be asked for. -/
inductive Request where
  /-- The rules of a style sheet. -/
  | rules
  /-- The declarations of a `style` attribute. -/
  | declarations
  deriving DecidableEq, Repr

namespace Request

/-- What an answer to the request is a list of. -/
def Item : Request → Type
  | rules => Rule
  | declarations => Declaration

/-- The reader that answers the request. -/
def read : (request : Request) → List Token → Outcome (List request.Item)
  | rules => Rule.readAll
  | declarations => Declaration.readAll false

theorem read_suffix (request : Request) (tokens : List Token) :
    (request.read tokens).rest <:+ tokens := by
  cases request with
  | rules => exact Rule.readAll_suffix tokens
  | declarations => exact Declaration.readAll_suffix false tokens

end Request

/-- A list of tokens, and how many of them are read. -/
@[ext]
structure Parser where
  tokens : List Token
  position : Nat
  inside : position ≤ tokens.length

namespace Parser

/-- The parser that has read none of its tokens. -/
def new (tokens : List Token) : Parser := ⟨tokens, 0, Nat.zero_le _⟩

/-- The parser of a text that does not break off inside a token. -/
def ofText (text : String) : Except Fault Parser := (tokensOf text).map new

/-- The tokens that are not read yet. -/
def rest (parser : Parser) : List Token := parser.tokens.drop parser.position

/-- The answer to a request, and the parser that has read what the answer takes. -/
def ask (request : Request) (parser : Parser) : Except Fault (List request.Item) × Parser :=
  let outcome := request.read parser.rest
  (outcome.result, ⟨parser.tokens, parser.tokens.length - outcome.rest.length, Nat.sub_le _ _⟩)

/-- The parser after some requests. -/
def after (parser : Parser) (requests : List Request) : Parser :=
  requests.foldl (fun parser request => (parser.ask request).2) parser

@[simp] theorem tokens_ask (request : Request) (parser : Parser) :
    (parser.ask request).2.tokens = parser.tokens := rfl

@[simp] theorem result_ask (request : Request) (parser : Parser) :
    (parser.ask request).1 = (request.read parser.rest).result := rfl

@[simp] theorem after_cons (parser : Parser) (request : Request) (requests : List Request) :
    parser.after (request :: requests) = (parser.ask request).2.after requests := rfl

theorem length_rest (parser : Parser) :
    parser.rest.length = parser.tokens.length - parser.position := List.length_drop

/-- A parser goes on with what the reader leaves. -/
@[simp] theorem rest_ask (request : Request) (parser : Parser) :
    (parser.ask request).2.rest = (request.read parser.rest).rest := by
  have left : (request.read parser.rest).rest <:+ parser.tokens :=
    (request.read_suffix parser.rest).trans (List.drop_suffix _ _)
  exact (List.suffix_iff_eq_drop.mp left).symm

/-- What is read stays read. -/
theorem position_le_ask (request : Request) (parser : Parser) :
    parser.position ≤ (parser.ask request).2.position := by
  have left := (request.read_suffix parser.rest).length_le
  have inside := parser.inside
  rw [length_rest] at left
  show _ ≤ parser.tokens.length - (request.read parser.rest).rest.length
  omega

/-- A parser is told by its tokens and what is left of them. -/
theorem ext_rest {parser other : Parser} (tokens : parser.tokens = other.tokens)
    (rest : parser.rest = other.rest) : parser = other := by
  have lengths := congrArg List.length rest
  have inside := parser.inside
  have insideOther := other.inside
  rw [length_rest, length_rest] at lengths
  rw [tokens] at lengths inside
  exact Parser.ext tokens (by omega)

end Parser

/-- The rules of a text are what its parser is first asked for. -/
theorem parseRules_eq (text : String) :
    parseRules text = Parser.ofText text >>= fun parser => (parser.ask .rules).1 := by
  rw [parseRules, Parser.ofText]
  cases tokensOf text <;> rfl

theorem parseDeclarations_eq (text : String) :
    parseDeclarations text = Parser.ofText text >>= fun parser => (parser.ask .declarations).1 := by
  rw [parseDeclarations, Parser.ofText]
  cases tokensOf text <;> rfl

end PagedHtml.Css
