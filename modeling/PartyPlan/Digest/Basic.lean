import PartyPlan.Digest.Blake3

/-! Digests of texts and of byte strings. -/
namespace PartyPlan

structure Digest where
  bytes : List UInt8
deriving DecidableEq

namespace Digest

def ofBytes (bytes : ByteArray) : Digest := ⟨Blake3.hash bytes⟩

def ofText (s : String) : Digest := ofBytes s.toUTF8

def hexDigit (n : Nat) : Char :=
  if n < 10 then Char.ofNat ('0'.toNat + n) else Char.ofNat ('a'.toNat + (n - 10))

def hexByte (b : UInt8) : List Char := [hexDigit (b.toNat / 16), hexDigit (b.toNat % 16)]

/-- The bytes as small hexadecimal digits. -/
def hex (d : Digest) : String := String.ofList (d.bytes.flatMap hexByte)

def short (d : Digest) : String := String.ofList ((d.bytes.flatMap hexByte).take 12)

end Digest
end PartyPlan
