/-!
# Reading UTF-8

Bytes are cut into pieces: well-formed characters, and longest malformed stretches
that could still have become one. `decode?` refuses malformed bytes, `decodeLossy`
shows a replacement character for each malformed piece.
-/

namespace ModuleLookup

/-- The continuation bytes a lead byte asks for, each with the range it may lie in.
Bytes that cannot lead ask for none. -/
def continuations (lead : UInt8) : List (UInt8 × UInt8) :=
  if 0xc2 ≤ lead ∧ lead ≤ 0xdf then [(0x80, 0xbf)]
  else if lead = 0xe0 then [(0xa0, 0xbf), (0x80, 0xbf)]
  else if lead = 0xed then [(0x80, 0x9f), (0x80, 0xbf)]
  else if 0xe1 ≤ lead ∧ lead ≤ 0xef then [(0x80, 0xbf), (0x80, 0xbf)]
  else if lead = 0xf0 then [(0x90, 0xbf), (0x80, 0xbf), (0x80, 0xbf)]
  else if lead = 0xf4 then [(0x80, 0x8f), (0x80, 0xbf), (0x80, 0xbf)]
  else if 0xf1 ≤ lead ∧ lead ≤ 0xf3 then [(0x80, 0xbf), (0x80, 0xbf), (0x80, 0xbf)]
  else []

/-- The bits of the code point that a lead byte holds. -/
def leadBits (lead : UInt8) : Nat :=
  if lead < 0x80 then lead.toNat
  else if lead < 0xe0 then lead.toNat % 32
  else if lead < 0xf0 then lead.toNat % 16
  else lead.toNat % 8

/-- Reads the continuation bytes that are asked for onto `bits`. The result is none
when one is missing or out of its range; the bytes before it are used up. -/
def continueWith (bits : Nat) : List (UInt8 × UInt8) → List UInt8 → Option Nat × List UInt8
  | [], bytes => (some bits, bytes)
  | _ :: _, [] => (none, [])
  | (lo, hi) :: asked, b :: bytes =>
    if lo ≤ b ∧ b ≤ hi then continueWith (bits * 64 + b.toNat % 64) asked bytes
    else (none, b :: bytes)

/-- The first piece of bytes that start with `lead`, and what follows it. -/
def firstPiece (lead : UInt8) (bytes : List UInt8) : Option Char × List UInt8 :=
  if lead < 0x80 then (some (Char.ofNat lead.toNat), bytes)
  else if continuations lead = [] then (none, bytes)
  else
    let read := continueWith (leadBits lead) (continuations lead) bytes
    (read.1.map Char.ofNat, read.2)

theorem length_continueWith_le (bits : Nat) (asked : List (UInt8 × UInt8))
    (bytes : List UInt8) : (continueWith bits asked bytes).2.length ≤ bytes.length := by
  fun_induction continueWith bits asked bytes with
  | case1 => simp
  | case2 => simp
  | case3 bits lo hi asked b bytes _ ih => simp only [List.length_cons]; omega
  | case4 => simp

theorem length_firstPiece_le (lead : UInt8) (bytes : List UInt8) :
    (firstPiece lead bytes).2.length ≤ bytes.length := by
  unfold firstPiece
  split
  · simp
  · split
    · simp
    · exact length_continueWith_le _ _ _

/-- The pieces of a run of bytes: a character, or none where they are malformed. -/
def pieces : List UInt8 → List (Option Char)
  | [] => []
  | b :: bytes => (firstPiece b bytes).1 :: pieces (firstPiece b bytes).2
termination_by bytes => bytes.length
decreasing_by
  have := length_firstPiece_le b bytes
  simp only [List.length_cons]
  omega

/-- The text of well-formed bytes. -/
def decode? (bytes : List UInt8) : Option String :=
  ((pieces bytes).mapM id).map String.ofList

/-- The text of any bytes, with U+FFFD for each malformed piece. -/
def decodeLossy (bytes : List UInt8) : String :=
  String.ofList ((pieces bytes).map fun piece => piece.getD '\uFFFD')

/-- The bytes of a text. -/
def encode (s : String) : List UInt8 :=
  s.toUTF8.toList

end ModuleLookup
