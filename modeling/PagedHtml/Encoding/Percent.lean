/-
**Percent-encoding.**

A percent sign and two hexadecimal digits stand for a byte; a percent sign that no two digits follow
stands for itself.
-/

import PagedHtml.Encoding.Codec

namespace PagedHtml.Encoding.Percent

def decode : List UInt8 → List UInt8
  | [] => []
  | [a] => [a]
  | [a, b] => [a, b]
  | a :: b :: c :: rest =>
    if a = sign then
      match digitValue? b, digitValue? c with
      | some high, some low => UInt8.ofNat (16 * high + low) :: decode rest
      | _, _ => a :: decode (b :: c :: rest)
    else a :: decode (b :: c :: rest)

/-- The text that percent-encoded text stands for, if its bytes are those of a text. -/
def decodeText? (text : String) : Option String := ofUtf8? (decode (utf8 text))

/-- A byte other than the percent sign stands for itself. -/
theorem decode_cons {a : UInt8} (plain : a ≠ sign) (rest : List UInt8) :
    decode (a :: rest) = a :: decode rest := by
  match rest with
  | [] => rfl
  | [_] => rfl
  | _ :: _ :: _ => rw [decode, if_neg plain]

/-- A percent sign and two digits stand for a byte. -/
theorem decode_digits {b c : UInt8} {high low : Nat} (first : digitValue? b = some high)
    (second : digitValue? c = some low) (rest : List UInt8) :
    decode (sign :: b :: c :: rest) = UInt8.ofNat (16 * high + low) :: decode rest := by
  simp [decode, first, second]

end PagedHtml.Encoding.Percent
