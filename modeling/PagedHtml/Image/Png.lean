/-
**The frame of a PNG image: its signature and its header.**

`frame` writes the frame of an image of a given size, and `size?` reads the size from the first
bytes of an image.
-/

namespace PagedHtml.Image.Png

/-- The bytes that every image starts with. -/
def signature : List UInt8 := [0x89, 0x50, 0x4E, 0x47, 0x0D, 0x0A, 0x1A, 0x0A]

/-- The four bytes of a number, the highest first. -/
def bigEndian (n : Nat) : List UInt8 :=
  [UInt8.ofNat (n / 0x1000000), UInt8.ofNat (n / 0x10000), UInt8.ofNat (n / 0x100), UInt8.ofNat n]

/-- The number of some bytes, the highest first. -/
def ofBigEndian (bytes : List UInt8) : Nat :=
  bytes.foldl (fun n byte => 256 * n + byte.toNat) 0

/-- One step of the check sum, by one bit. -/
def checkBit (sum : Nat) : Nat :=
  if sum % 2 = 1 then (sum / 2) ^^^ 0xEDB88320 else sum / 2

def checkSum (bytes : List UInt8) : Nat :=
  let addByte (sum : Nat) (byte : UInt8) := Nat.repeat checkBit 8 (sum ^^^ byte.toNat)
  bytes.foldl addByte 0xFFFFFFFF ^^^ 0xFFFFFFFF

/-- The name of the header, and the part of it that follows the size: eight bits for each of red,
green, blue and opacity. -/
def header (width height : Nat) : List UInt8 :=
  [0x49, 0x48, 0x44, 0x52] ++ bigEndian width ++ bigEndian height ++ [8, 6, 0, 0, 0]

def frame (width height : Nat) : List UInt8 :=
  signature ++ bigEndian 13 ++ header width height ++ bigEndian (checkSum (header width height))

/-- The width and height of an image, if the bytes are those of one. -/
def size? (bytes : List UInt8) : Option (Nat × Nat) :=
  if bytes.take 8 = signature ∧ 24 ≤ bytes.length then
    some (ofBigEndian ((bytes.drop 16).take 4), ofBigEndian ((bytes.drop 20).take 4))
  else none

end PagedHtml.Image.Png
