import ModuleLookup.Source.Token

/-!
# Tokens in their place

A `Lexeme` is a token together with what the text before it says about it: how many
bytes came first, which line it starts on, and whether a dot stands directly before
it. A word directly behind a dot names a member and is never a keyword.

* `lineBehind` — the line that so many newlines lead to, as a number of 32 bits.
* `lexemes_append` — a run over lexemes can be cut between any two tokens.
-/

namespace ModuleLookup

/-- The line behind this many newlines, counted from one. A line is a number of 32 bits, and behind
the last of these numbers the count goes round. -/
def lineBehind (newlines : Nat) : UInt32 :=
  1 + UInt32.ofNat newlines

/-- More newlines are counted on from the line where they start. -/
theorem lineBehind_add (newlines more : Nat) :
    lineBehind (newlines + more) = lineBehind newlines + UInt32.ofNat more := by
  rw [lineBehind, lineBehind, UInt32.ofNat_add, UInt32.add_assoc]

/-- A position between two tokens. -/
structure Place where
  /-- bytes before this place -/
  offset : Nat
  /-- the line of this place, counted from one -/
  line : UInt32
  /-- whether the character before this place is a dot -/
  afterDot : Bool
  deriving DecidableEq

namespace Place

/-- The start of a text. -/
def start : Place := ⟨0, 1, false⟩

/-- The place behind a token. -/
def after (p : Place) (t : Token) : Place :=
  ⟨p.offset + t.size, p.line + UInt32.ofNat (t.text.count '\n'), t == .mark '.'⟩

/-- The place behind several tokens. -/
def afterAll (p : Place) (ts : List Token) : Place :=
  ts.foldl after p

end Place

/-- A token and the place where it starts. -/
structure Lexeme where
  /-- the token itself -/
  token : Token
  /-- where it starts -/
  place : Place
  deriving DecidableEq

/-- Tokens in their places, the first one at `p`. -/
def lexemes (p : Place) : List Token → List Lexeme
  | [] => []
  | t :: ts => ⟨t, p⟩ :: lexemes (p.after t) ts

theorem lexemes_append (p : Place) (ts us : List Token) :
    lexemes p (ts ++ us) = lexemes p ts ++ lexemes (p.afterAll ts) us := by
  induction ts generalizing p with
  | nil => rfl
  | cons t ts ih => simp [lexemes, Place.afterAll, ih]

theorem map_token_lexemes (p : Place) (ts : List Token) :
    (lexemes p ts).map Lexeme.token = ts := by
  induction ts generalizing p with
  | nil => rfl
  | cons t ts ih => simp [lexemes, ih]

namespace Lexeme

/-- Whether this is the given word, standing as a keyword. -/
def isKeyword (l : Lexeme) (keyword : String) : Bool :=
  !l.place.afterDot && l.token == .word keyword.toList

/-- The bytes the token takes. -/
def size (l : Lexeme) : Nat :=
  l.token.size

/-- Blanks and comments. -/
def isTrivia (l : Lexeme) : Bool :=
  l.token.isTrivia

end Lexeme

end ModuleLookup
