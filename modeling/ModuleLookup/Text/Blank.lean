/-!
# Blank text

The characters with the property `White_Space`. A text of nothing else says nothing,
and counts as empty where a name is asked for.
-/

namespace ModuleLookup

/-- Ranges of white space code points, first and last. -/
def whiteSpaceRanges : List (Nat × Nat) :=
  [(0x9, 0xd), (0x20, 0x20), (0x85, 0x85), (0xa0, 0xa0), (0x1680, 0x1680), (0x2000, 0x200a),
   (0x2028, 0x2029), (0x202f, 0x202f), (0x205f, 0x205f), (0x3000, 0x3000)]

/-- Whether a character is white space. -/
def isWhiteSpace (c : Char) : Bool :=
  whiteSpaceRanges.any fun r => r.1 ≤ c.toNat && c.toNat ≤ r.2

/-- Whether a text is empty or all white space. -/
def isBlankText (s : String) : Bool :=
  s.toList.all isWhiteSpace

end ModuleLookup
