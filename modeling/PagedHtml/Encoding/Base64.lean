/-
**Base64 with the standard alphabet and full padding.**

`encode` writes three bytes as four symbols and fills up the last four with padding; `decode`
accepts exactly what `encode` writes and says what is wrong with anything else. It reads groups of
four symbols from the left; a symbol that stands alone behind the last full group is looked at
first.
-/

namespace PagedHtml.Encoding.Base64

/-- Why bytes are no base64. -/
inductive Fault where
  /-- A byte that is no symbol, or padding in a place where there is none. -/
  | invalidSymbol (symbol : UInt8) (offset : Nat)
  /-- The last group has a single symbol. -/
  | invalidLength (length : Nat)
  /-- The last symbol has bits that belong to no byte. -/
  | invalidLastSymbol (symbol : UInt8) (offset : Nat)
  /-- The last group is not filled up. -/
  | invalidPadding
  deriving DecidableEq, Repr

def Fault.message : Fault → String
  | invalidSymbol symbol offset =>
    "Invalid symbol " ++ toString symbol.toNat ++ ", offset " ++ toString offset ++ "."
  | invalidLength length => "Invalid input length: " ++ toString length
  | invalidLastSymbol symbol offset =>
    "Invalid last symbol " ++ toString symbol.toNat ++ ", offset " ++ toString offset ++ "."
  | invalidPadding => "Invalid padding"

/-! ### The alphabet -/

/-- The symbol of a value below 64. -/
def symbol (value : Nat) : UInt8 :=
  UInt8.ofNat <|
    if value < 26 then value + 'A'.toNat
    else if value < 52 then value - 26 + 'a'.toNat
    else if value < 62 then value - 52 + '0'.toNat
    else if value = 62 then '+'.toNat
    else '/'.toNat

def value? (symbol : UInt8) : Option Nat :=
  let n := symbol.toNat
  if 'A'.toNat ≤ n ∧ n ≤ 'Z'.toNat then some (n - 'A'.toNat)
  else if 'a'.toNat ≤ n ∧ n ≤ 'z'.toNat then some (n - 'a'.toNat + 26)
  else if '0'.toNat ≤ n ∧ n ≤ '9'.toNat then some (n - '0'.toNat + 52)
  else if n = '+'.toNat then some 62
  else if n = '/'.toNat then some 63
  else none

/-- What fills up the last group. -/
def padding : UInt8 := 61

/-! ### Writing -/

def encode : List UInt8 → List UInt8
  | [] => []
  | [a] => [symbol (a.toNat / 4), symbol (a.toNat % 4 * 16), padding, padding]
  | [a, b] =>
    [symbol (a.toNat / 4), symbol (a.toNat % 4 * 16 + b.toNat / 16), symbol (b.toNat % 16 * 4),
      padding]
  | a :: b :: c :: rest =>
    symbol (a.toNat / 4) :: symbol (a.toNat % 4 * 16 + b.toNat / 16) ::
      symbol (b.toNat % 16 * 4 + c.toNat / 64) :: symbol (c.toNat % 64) :: encode rest

def encodeText (bytes : List UInt8) : String :=
  String.ofList ((encode bytes).map fun symbol => Char.ofNat symbol.toNat)

/-! ### Reading -/

/-- The value of a symbol that stands at an offset. -/
def valueAt (offset : Nat) (symbol : UInt8) : Except Fault Nat :=
  match value? symbol with
  | some value => .ok value
  | none => .error (.invalidSymbol symbol offset)

def firstByte (a b : Nat) : UInt8 := UInt8.ofNat (a * 4 + b / 16)

def secondByte (b c : Nat) : UInt8 := UInt8.ofNat (b % 16 * 16 + c / 4)

def thirdByte (c d : Nat) : UInt8 := UInt8.ofNat (c % 4 * 64 + d)

/-- The values in the last group, the first symbol of which stands at an offset, and how much
padding follows them; `index` counts the symbols of the group that were already read. -/
def lastValues (offset index : Nat) : List UInt8 → Except Fault (List Nat × Nat)
  | [] => .ok ([], 0)
  | symbol :: rest =>
    if symbol = padding then
      if 2 ≤ index ∧ rest.all (· = padding) then .ok ([], rest.length + 1)
      else .error (.invalidSymbol padding (offset + index))
    else do
      let value ← valueAt (offset + index) symbol
      let (values, filled) ← lastValues offset (index + 1) rest
      return (value :: values, filled)

/-- The bytes of the last group, the first symbol of which stands at an offset. -/
def decodeLast (offset : Nat) (group : List UInt8) : Except Fault (List UInt8) := do
  let (values, filled) ← lastValues offset 0 group
  let lastSymbol := group.getD (values.length - 1) 0
  let unusedBits := .invalidLastSymbol lastSymbol (offset + values.length - 1)
  if group = [] then return []
  else if values.length < 2 then throw (.invalidLength (offset + values.length))
  else if (values.length + filled) % 4 ≠ 0 then throw .invalidPadding
  else
    match values with
    | [a, b] => if b % 16 = 0 then return [firstByte a b] else throw unusedBits
    | [a, b, c] => if c % 4 = 0 then return [firstByte a b, secondByte b c] else throw unusedBits
    | [a, b, c, d] => return [firstByte a b, secondByte b c, thirdByte c d]
    | _ => return []

/-- The bytes of the groups from an offset on. -/
def decodeFrom (offset : Nat) : List UInt8 → Except Fault (List UInt8)
  | a :: b :: c :: d :: e :: rest => do
    let first ← valueAt offset a
    let second ← valueAt (offset + 1) b
    let third ← valueAt (offset + 2) c
    let fourth ← valueAt (offset + 3) d
    let bytes ← decodeFrom (offset + 4) (e :: rest)
    return firstByte first second :: secondByte second third :: thirdByte third fourth :: bytes
  | group => decodeLast offset group

def decode (symbols : List UInt8) : Except Fault (List UInt8) :=
  match symbols.getLast? with
  | none => .ok []
  | some last =>
    if symbols.length % 4 = 1 ∧ last ≠ padding ∧ value? last = none then
      .error (.invalidSymbol last (symbols.length - 1))
    else decodeFrom 0 symbols

end PagedHtml.Encoding.Base64
