import ModuleLookup.Proofs.Cursor.Bytes
import ModuleLookup.Proofs.Source.Clause
import ModuleLookup.Proofs.Source.Tokens

/-!
# Tokens under the cursor

Between two tokens of a text the cursor sees the first character of the next one, and can tell
from it what kind of token that is, apart from a slash.

* `offsetBehind` — the places between two tokens; `peek_token` — what is seen there.
* `exists_word_of_sign`, `isQuote_sign`, `isBlank_sign`, `sign_eq_iff` — kinds of tokens.
-/

namespace ModuleLookup.Cursor

/-- The place behind the first tokens of a text. -/
def offsetBehind (ts : List Token) : Nat :=
  byteLength (ts.flatMap Token.text)

theorem offsetBehind_append (ts us : List Token) :
    offsetBehind (ts ++ us) = offsetBehind ts + offsetBehind us := by
  rw [offsetBehind, List.flatMap_append, byteLength_append]
  rfl

theorem offsetBehind_singleton (t : Token) : offsetBehind [t] = t.size := by
  rw [offsetBehind, List.flatMap_singleton]
  rfl

/-- A token behind the first ones of a text. -/
def lexemeBehind (ts : List Token) (t : Token) : Lexeme :=
  ⟨t, Place.start.afterAll ts⟩

/-- The first character that is seen of a token. -/
def sign : Token → Char
  | .comment _ => '/'
  | .literal q .. => q
  | .word w => lead (w.headD ' ')
  | .blank c | .mark c => c

theorem not_isTrivia (ts : List Token) {t : Token} (h : t.isTrivia = false) :
    ¬(lexemeBehind ts t).isTrivia = true := by
  rw [show (lexemeBehind ts t).isTrivia = false from h]
  exact Bool.false_ne_true

theorem isKeyword_of_not_word (ts : List Token) {t : Token} (h : ∀ w, t ≠ .word w)
    (keyword : String) : (lexemeBehind ts t).isKeyword keyword = false :=
  Lexeme.isKeyword_eq_false h keyword

section

variable {cs : List Char} {ts us : List Token} {t : Token}

theorem text_of_tokens_eq (h : tokens cs = ts ++ us) :
    cs = ts.flatMap Token.text ++ us.flatMap Token.text := by
  rw [← List.flatMap_append, ← h, tokens_text]

theorem offsetBehind_le (h : tokens cs = ts ++ us) : offsetBehind ts ≤ (bytesOf cs).length := by
  rw [text_of_tokens_eq h]
  exact byteLength_le_length_bytesOf _ _

/-- Before the end of the text there is a token. -/
theorem exists_cons_of_lt (h : tokens cs = ts ++ us) (hlt : offsetBehind ts < (bytesOf cs).length) :
    ∃ t vs, us = t :: vs := by
  cases us with
  | nil =>
    rw [text_of_tokens_eq h, length_bytesOf, List.flatMap_nil, List.append_nil] at hlt
    exact absurd hlt (Nat.lt_irrefl _)
  | cons t vs => exact ⟨t, vs, rfl⟩

/-- What is seen between two tokens. -/
theorem peek_offsetBehind (h : tokens cs = ts ++ us) :
    peek (bytesOf cs) (offsetBehind ts) = (us.flatMap Token.text).head?.map lead := by
  rw [text_of_tokens_eq h, offsetBehind, peek_at]

theorem peek_end (h : tokens cs = ts ++ []) : peek (bytesOf cs) (offsetBehind ts) = none := by
  rw [peek_offsetBehind h]
  rfl

/-- A token takes at least a byte. -/
theorem offsetBehind_lt (h : tokens cs = ts ++ t :: us) :
    offsetBehind ts < offsetBehind (ts ++ [t]) := by
  obtain ⟨c, rest, htext⟩ := List.exists_cons_of_ne_nil (cut_of_tokens_eq h).text_ne_nil
  have hpos := Char.utf8Size_pos c
  rw [offsetBehind_append, offsetBehind_singleton, Token.size, htext, byteLength_cons]
  omega

theorem toNat_lt_of_isWordChar_eq_false {c : Char} (h : isWordChar c = false) : c.toNat < 128 := by
  rcases Nat.lt_or_ge c.toNat 128 with hlow | hhigh
  · exact hlow
  · rw [isWordChar_of_le hhigh] at h
    cases h

/-- What is seen of a token. -/
theorem peek_token (h : tokens cs = ts ++ t :: us) :
    peek (bytesOf cs) (offsetBehind ts) = some (sign t) := by
  have hcut := cut_of_tokens_eq h
  rw [peek_offsetBehind h, List.flatMap_cons]
  generalize us.flatMap Token.text = rest at hcut
  have hlead {c : Char} (hc : isWordChar c = false) : some (lead c) = some c := by
    rw [lead_of_lt (toNat_lt_of_isWordChar_eq_false hc)]
  cases hcut with
  | line | block | openBlock => exact hlead (by decide)
  | closed hq | unclosed hq | unescaped hq => exact hlead (isWordChar_eq_false_of_isQuote hq)
  | word hne =>
    obtain ⟨c, w, rfl⟩ := List.exists_cons_of_ne_nil hne
    rfl
  | blank hb => exact hlead (isWordChar_eq_false_of_isBlank hb)
  | mark _ _ hw => exact hlead hw

theorem isWordChar_sign {w : List Char} (h : tokens cs = ts ++ .word w :: us) :
    isWordChar (sign (.word w)) = true := by
  cases cut_of_tokens_eq h with
  | word hne hw =>
    obtain ⟨c, w, rfl⟩ := List.exists_cons_of_ne_nil hne
    rw [sign, List.headD_cons, coarse_isWordChar.lead]
    exact hw c List.mem_cons_self

/-- Nothing else looks like a word. -/
theorem exists_word_of_sign (h : tokens cs = ts ++ t :: us) (ht : isWordChar (sign t) = true) :
    ∃ w, t = .word w := by
  have hfits := fits_of_tokens_eq h
  cases t with
  | comment s =>
    rw [show sign (.comment s) = '/' from rfl] at ht
    exact absurd ht (by decide)
  | literal q body closed =>
    have hq := isWordChar_eq_false_of_isQuote (isQuote_of_tokens_eq h)
    rw [show sign (.literal q body closed) = q from rfl, hq] at ht
    cases ht
  | word w => exact ⟨w, rfl⟩
  | blank c | mark c =>
    rw [sign, show isWordChar c = false from hfits] at ht
    cases ht

/-- What is seen of a token is a quote just when it is a literal. -/
theorem isQuote_sign (h : tokens cs = ts ++ t :: us) :
    isQuote (sign t) = true ↔ ∃ q body closed, t = .literal q body closed := by
  constructor
  · intro hq
    cases t with
    | comment s =>
      rw [show sign (.comment s) = '/' from rfl] at hq
      exact absurd hq (by decide)
    | literal q body closed => exact ⟨q, body, closed, rfl⟩
    | word w =>
      have hw := isWordChar_eq_false_of_isQuote hq
      rw [isWordChar_sign h] at hw
      cases hw
    | blank c =>
      cases cut_of_tokens_eq h with
      | blank hb =>
        rw [show sign (.blank c) = c from rfl, isQuote_eq_false_of_isBlank hb] at hq
        cases hq
    | mark c =>
      cases cut_of_tokens_eq h with
      | mark hc =>
        rw [show sign (.mark c) = c from rfl, hc] at hq
        cases hq
  · rintro ⟨q, body, closed, rfl⟩
    exact isQuote_of_tokens_eq h

/-- What is seen of a token is a blank just when the token is one. -/
theorem isBlank_sign (h : tokens cs = ts ++ t :: us) :
    isBlank (sign t) = true ↔ ∃ c, t = .blank c := by
  constructor
  · intro hb
    cases t with
    | comment s =>
      rw [show sign (.comment s) = '/' from rfl] at hb
      exact absurd hb (by decide)
    | literal q body closed =>
      have hq := isQuote_eq_false_of_isBlank hb
      rw [show sign (.literal q body closed) = q from rfl, isQuote_of_tokens_eq h] at hq
      cases hq
    | word w =>
      have hw := isWordChar_eq_false_of_isBlank hb
      rw [isWordChar_sign h] at hw
      cases hw
    | blank c => exact ⟨c, rfl⟩
    | mark c =>
      cases cut_of_tokens_eq h with
      | mark _ hc =>
        rw [show sign (.mark c) = c from rfl, hc] at hb
        cases hb
  · rintro ⟨c, rfl⟩
    cases cut_of_tokens_eq h with
    | blank hb => exact hb

/-- What is seen of a mark is seen of no other token. -/
theorem sign_eq_iff (h : tokens cs = ts ++ t :: us) {c : Char} (hq : isQuote c = false)
    (hb : isBlank c = false) (hw : isWordChar c = false) (hslash : c ≠ '/') :
    sign t = c ↔ t = .mark c := by
  constructor
  · rintro rfl
    cases t with
    | comment s => exact absurd rfl hslash
    | literal q body closed =>
      rw [(isQuote_sign h).2 ⟨q, body, closed, rfl⟩] at hq
      cases hq
    | word w =>
      rw [isWordChar_sign h] at hw
      cases hw
    | blank c =>
      cases cut_of_tokens_eq h with
      | blank hc =>
        rw [show sign (.blank c) = c from rfl, hc] at hb
        cases hb
    | mark c => rfl
  · rintro rfl
    rfl

/-- A mark is seen where it is. -/
theorem peek_eq_mark_iff (h : tokens cs = ts ++ us) {c : Char} (hq : isQuote c = false)
    (hb : isBlank c = false) (hw : isWordChar c = false) (hslash : c ≠ '/') :
    peek (bytesOf cs) (offsetBehind ts) = some c ↔ us.head? = some (.mark c) := by
  cases us with
  | nil => rw [peek_end h]; exact ⟨nofun, nofun⟩
  | cons t us =>
    rw [peek_token h, Option.some.injEq, List.head?_cons, Option.some.injEq]
    exact sign_eq_iff h hq hb hw hslash

end

end ModuleLookup.Cursor
