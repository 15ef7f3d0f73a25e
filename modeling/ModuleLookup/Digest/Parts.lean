import ModuleLookup.Digest.Blake3
import ModuleLookup.Text.Utf8

/-!
# Digests of lists of texts

A list of texts is written as bytes with the length of every text before it, so that
texts can neither run together nor fall apart, and the digest is the hash of that.
-/

namespace ModuleLookup

/-- The eight bytes of a length, the least significant first. -/
def lengthBytes (n : Nat) : List UInt8 :=
  (List.range 8).map fun i => (n / Nat.pow 256 i).toUInt8

/-- A text behind its length. -/
def framed (part : String) : List UInt8 :=
  lengthBytes (encode part).length ++ encode part

/-- Texts one after the other, each behind its length. -/
def framedParts (parts : List String) : List UInt8 :=
  parts.flatMap framed

/-- A byte as two digits in base sixteen. -/
def hexByte (b : UInt8) : List Char :=
  [Nat.digitChar (b.toNat / 16), Nat.digitChar (b.toNat % 16)]

/-- The digest of a list of texts, in base sixteen. -/
def digest (parts : List String) : String :=
  String.ofList ((Blake3.hash (framedParts parts)).flatMap hexByte)

end ModuleLookup
