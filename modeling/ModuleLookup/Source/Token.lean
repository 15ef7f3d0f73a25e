import ModuleLookup.Text.ByteLength

/-!
# Tokens of a source text

A source file is cut into the few kinds of tokens that matter for finding module
specifiers: comments, literals in one of three quotes, words, blanks, and single
other characters. Nothing is rejected and nothing is lost:

* `Token.first_text` — the first token and the rest together are the text;
* `tokens_text` — so the tokens written one after the other are the text.

A literal ends at the next unescaped quote of its own kind. One in `'` or `"` that
meets an unescaped newline first is left open there, as is any literal or block
comment that meets the end of the text.
-/

namespace ModuleLookup

/-- A piece of source text. -/
inductive Token where
  /-- a `//` or `/* */` comment, whole -/
  | comment (lexeme : List Char)
  /-- the inside of a literal, and whether its closing quote was found -/
  | literal (quote : Char) (body : List Char) (closed : Bool)
  /-- a longest run of identifier characters -/
  | word (text : List Char)
  /-- one blank character -/
  | blank (c : Char)
  /-- any other single character -/
  | mark (c : Char)
  deriving DecidableEq

/-- Quotes that open a literal; the last one opens a template. -/
def isQuote (c : Char) : Bool :=
  c == '\x22' || c == '\x27' || c == '\x60'

/-- ASCII blanks: space, tab, newline, form feed, carriage return. -/
def isBlank (c : Char) : Bool :=
  c == ' ' || c == '\t' || c == '\n' || c == '\x0c' || c == '\r'

/-- Characters of a word: ASCII letters and digits, `_`, `$`, and everything
outside ASCII. -/
def isWordChar (c : Char) : Bool :=
  c.isAlphanum || c == '_' || c == '$' || 128 ≤ c.toNat

namespace Token

/-- The token as it stands in the source. -/
def text : Token → List Char
  | comment s => s
  | literal q body true => q :: body ++ [q]
  | literal q body false => q :: body
  | word s => s
  | blank c => [c]
  | mark c => [c]

/-- The bytes the token takes in the source. -/
def size (t : Token) : Nat :=
  byteLength t.text

/-- Blanks and comments, which may stand between any two other tokens. -/
def isTrivia : Token → Bool
  | comment _ => true
  | blank _ => true
  | _ => false

/-- The rest of a block comment up to and with its end, and what follows. -/
def blockEnd : List Char → List Char × List Char
  | [] => ([], [])
  | '*' :: '/' :: rest => (['*', '/'], rest)
  | c :: rest => (c :: (blockEnd rest).1, (blockEnd rest).2)

/-- The inside of a literal after its opening quote, whether it is closed, and what
follows. A backslash takes the next character with it. -/
def literalEnd (q : Char) : List Char → List Char × Bool × List Char
  | [] => ([], false, [])
  | ['\\'] => (['\\'], false, [])
  | '\\' :: c :: rest =>
    let (body, closed, after) := literalEnd q rest
    ('\\' :: c :: body, closed, after)
  | c :: rest =>
    if c = q then ([], true, rest)
    else if c = '\n' ∧ q ≠ '\x60' then ([], false, c :: rest)
    else
      let (body, closed, after) := literalEnd q rest
      (c :: body, closed, after)

/-- The first token of a text that starts with `c`, and what follows it. -/
def first (c : Char) (cs : List Char) : Token × List Char :=
  match c, cs with
  | '/', '/' :: rest =>
    (comment ('/' :: '/' :: rest.takeWhile (· != '\n')), rest.dropWhile (· != '\n'))
  | '/', '*' :: rest =>
    (comment ('/' :: '*' :: (blockEnd rest).1), (blockEnd rest).2)
  | c, cs =>
    if isQuote c then
      let (body, closed, after) := literalEnd c cs
      (literal c body closed, after)
    else if isBlank c then (blank c, cs)
    else if isWordChar c then (word (c :: cs.takeWhile isWordChar), cs.dropWhile isWordChar)
    else (mark c, cs)

theorem blockEnd_text (cs : List Char) : (blockEnd cs).1 ++ (blockEnd cs).2 = cs := by
  fun_induction blockEnd cs <;> simp_all

theorem literalEnd_text (q : Char) (cs : List Char) :
    (literalEnd q cs).1 ++ (if (literalEnd q cs).2.1 then [q] else []) ++ (literalEnd q cs).2.2
      = cs := by
  fun_induction literalEnd q cs <;> simp_all

/-- The first token and the rest together are the text. -/
theorem first_text (c : Char) (cs : List Char) :
    (first c cs).1.text ++ (first c cs).2 = c :: cs := by
  unfold first
  split
  · simp [text, List.takeWhile_append_dropWhile]
  · simp [text, blockEnd_text]
  · next h₁ h₂ =>
    split
    · have h := literalEnd_text c cs
      rcases hl : literalEnd c cs with ⟨body, closed, after⟩
      rw [hl] at h
      cases closed <;> simp_all [text]
    · split
      · simp [text]
      · split
        · simp [text, List.takeWhile_append_dropWhile]
        · simp [text]

/-- A token is never empty. -/
theorem text_first_ne_nil (c : Char) (cs : List Char) : (first c cs).1.text ≠ [] := by
  unfold first
  split
  · simp [text]
  · simp [text]
  · split
    · rcases literalEnd c cs with ⟨body, closed, after⟩
      cases closed <;> simp [text]
    · split
      · simp [text]
      · split <;> simp [text]

/-- What follows the first token is shorter than the text. -/
theorem length_first_le (c : Char) (cs : List Char) : (first c cs).2.length ≤ cs.length := by
  have h := congrArg List.length (first_text c cs)
  have hne := List.length_pos_iff.2 (text_first_ne_nil c cs)
  simp only [List.length_append, List.length_cons] at h
  omega

end Token

/-- The tokens of a text. -/
def tokens : List Char → List Token
  | [] => []
  | c :: cs => (Token.first c cs).1 :: tokens (Token.first c cs).2
termination_by cs => cs.length
decreasing_by
  have := Token.length_first_le c cs
  simp only [List.length_cons]
  omega

/-- The tokens written one after the other are the text. -/
theorem tokens_text (cs : List Char) : (tokens cs).flatMap Token.text = cs := by
  fun_induction tokens cs with
  | case1 => rfl
  | case2 c cs ih => rw [List.flatMap_cons, ih, Token.first_text]

end ModuleLookup
