import ModuleLookup.Source.Lexeme
import ModuleLookup.Proofs.Source.Lexing

/-!
# Where tokens stand

Tokens are cut from left to right, and nothing but the text that is left decides how it is
cut. So each piece of a text between two tokens can be looked at alone, and a word that
stands for itself in the text is a token.

* `eq_tokens_of_tokens_eq_append` — what stands behind some of the tokens is cut as if it
  stood alone.
* `cut_of_tokens_eq` — every token is cut off by the rules; `Token.Fits` — what a token says
  about its own characters and the one behind it.
* `CodeAt` — a place in a text that is in no comment and no literal; `exists_word_of_codeAt`
  — a word there, with nothing of a word around it, is a token.
* `afterAll_eq` — the place behind some tokens, from their text.
-/

namespace ModuleLookup

/-! ## Cutting -/

theorem tokens_cons (c : Char) (cs : List Char) :
    tokens (c :: cs) = (Token.first c cs).1 :: tokens (Token.first c cs).2 := by
  rw [tokens]

/-- What stands behind some of the tokens is cut as if it stood alone. -/
theorem eq_tokens_of_tokens_eq_append {cs : List Char} {ts us : List Token}
    (h : tokens cs = ts ++ us) : us = tokens (us.flatMap Token.text) := by
  induction ts generalizing cs with
  | nil =>
    have htext := tokens_text cs
    rw [h, List.nil_append] at htext
    rw [htext, h, List.nil_append]
  | cons t ts ih =>
    cases cs with
    | nil =>
      rw [tokens] at h
      cases h
    | cons c cs =>
      rw [tokens_cons] at h
      exact ih (List.cons.inj h).2

theorem eq_tokens_of_tokens_eq_cons {cs : List Char} {ts us : List Token} {t : Token}
    (h : tokens cs = ts ++ t :: us) : us = tokens (us.flatMap Token.text) := by
  rw [List.append_cons] at h
  exact eq_tokens_of_tokens_eq_append h

/-- Some of the tokens from the front are told by their text. -/
theorem eq_of_tokens_eq_append {cs : List Char} {ts us vs ws : List Token}
    (hts : tokens cs = ts ++ us) (hvs : tokens cs = vs ++ ws)
    (h : ts.flatMap Token.text = vs.flatMap Token.text) : ts = vs := by
  have htext : ts.flatMap Token.text ++ us.flatMap Token.text
      = vs.flatMap Token.text ++ ws.flatMap Token.text := by
    rw [← List.flatMap_append, ← List.flatMap_append, ← hts, ← hvs]
  rw [h] at htext
  have hus : us = ws := by
    rw [eq_tokens_of_tokens_eq_append hts, eq_tokens_of_tokens_eq_append hvs,
      List.append_cancel_left htext]
  rw [hts, hus] at hvs
  exact List.append_cancel_right hvs

/-! ## Tokens and their characters -/

/-- Every token is cut off by the rules in front of what is behind it. -/
theorem cut_of_tokens_eq {cs : List Char} {ts us : List Token} {t : Token}
    (h : tokens cs = ts ++ t :: us) : t.Cut (us.flatMap Token.text) := by
  have hrest := eq_tokens_of_tokens_eq_append h
  rw [List.flatMap_cons] at hrest
  have hlexed := tokens_eq_iff_lexed.1 hrest.symm
  generalize htext : t.text ++ us.flatMap Token.text = ds at hlexed
  cases hlexed with
  | cons ht _ =>
    rw [List.append_cancel_left htext]
    exact ht

/-- What a token says about its own characters and about the one behind it. -/
def Token.Fits (rest : List Char) : Token → Prop
  | word w => (∀ c ∈ w, isWordChar c = true) ∧ ∀ c ∈ rest.head?, isWordChar c = false
  | blank c | mark c => isWordChar c = false
  | comment _ | literal .. => True

theorem Token.Cut.fits {t : Token} {rest : List Char} (h : t.Cut rest) : t.Fits rest := by
  cases h with
  | word _ hw hrest => exact ⟨hw, hrest⟩
  | blank hb => exact isWordChar_eq_false_of_isBlank hb
  | mark _ _ hw => exact hw
  | _ => trivial

/-- Every token of a text fits where it stands. -/
theorem fits_of_tokens_eq {cs : List Char} {ts us : List Token} {t : Token}
    (h : tokens cs = ts ++ t :: us) : t.Fits (us.flatMap Token.text) :=
  (cut_of_tokens_eq h).fits

/-- Literals are in quotes. -/
theorem isQuote_of_tokens_eq {cs body : List Char} {ts us : List Token} {q : Char}
    {closed : Bool} (h : tokens cs = ts ++ .literal q body closed :: us) : isQuote q = true :=
  (cut_of_tokens_eq h).isQuote

/-! ## Words -/

/-- Comments and literals; everything else is code. -/
def Token.isCode : Token → Bool
  | word _ | blank _ | mark _ => true
  | comment _ | literal .. => false

/-- The place behind `before` is in no comment and in no literal of a text. -/
def CodeAt (cs before : List Char) : Prop :=
  ∃ ts t us lead tail, tokens cs = ts ++ t :: us ∧ t.isCode = true ∧
    t.text = lead ++ tail ∧ tail ≠ [] ∧ before = ts.flatMap Token.text ++ lead

/-- Two words with nothing of a word behind them are the same. -/
theorem eq_and_eq_of_words {v w rest behind : List Char}
    (hv : ∀ c ∈ v, isWordChar c = true) (hrest : ∀ c ∈ rest.head?, isWordChar c = false)
    (hw : ∀ c ∈ w, isWordChar c = true) (hbehind : ∀ c ∈ behind.head?, isWordChar c = false)
    (h : v ++ rest = w ++ behind) : v = w ∧ rest = behind := by
  induction v generalizing w with
  | nil =>
    cases w with
    | nil => exact ⟨rfl, h⟩
    | cons d w =>
      rw [List.nil_append, List.cons_append] at h
      subst h
      have hd := hw d List.mem_cons_self
      rw [hrest d rfl] at hd
      cases hd
  | cons c v ih =>
    cases w with
    | nil =>
      rw [List.nil_append, List.cons_append] at h
      subst h
      have hc := hv c List.mem_cons_self
      rw [hbehind c rfl] at hc
      cases hc
    | cons d w =>
      obtain ⟨rfl, htail⟩ := List.cons.inj h
      obtain ⟨rfl, hb⟩ := ih (fun x hx => hv x (List.mem_cons_of_mem _ hx))
        (fun x hx => hw x (List.mem_cons_of_mem _ hx)) htail
      exact ⟨rfl, hb⟩

/-- **A word that stands for itself in code is a token.** -/
theorem exists_word_of_codeAt {cs before w behind : List Char} (h : cs = before ++ w ++ behind)
    (hcode : CodeAt cs before) (hne : w ≠ []) (hw : ∀ c ∈ w, isWordChar c = true)
    (hbefore : ∀ c ∈ before.getLast?, isWordChar c = false)
    (hbehind : ∀ c ∈ behind.head?, isWordChar c = false) :
    ∃ ts, tokens cs = ts ++ .word w :: tokens behind ∧ ts.flatMap Token.text = before := by
  obtain ⟨ts, t, us, lead, tail, htokens, hcode, ht, htail, rfl⟩ := hcode
  have hfits := fits_of_tokens_eq htokens
  -- the token around the place, and the word, are cut from the same text
  have htext : tail ++ us.flatMap Token.text = w ++ behind := by
    have hall := tokens_text cs
    rw [htokens, List.flatMap_append, List.flatMap_cons, ht, h] at hall
    simp only [List.append_assoc, List.append_cancel_left_eq] at hall
    exact hall
  obtain ⟨c, w, rfl⟩ := List.exists_cons_of_ne_nil hne
  obtain ⟨d, tail, rfl⟩ := List.exists_cons_of_ne_nil htail
  have hd : isWordChar d = true := by
    rw [(List.cons.inj htext).1]
    exact hw c List.mem_cons_self
  have hmem : d ∈ t.text := by
    rw [ht]
    exact List.mem_append_right lead List.mem_cons_self
  cases t with
  | comment s => cases hcode
  | literal q body closed => cases hcode
  | blank b =>
    rw [List.mem_singleton.1 hmem, show isWordChar b = false from hfits] at hd
    cases hd
  | mark m =>
    rw [List.mem_singleton.1 hmem, show isWordChar m = false from hfits] at hd
    cases hd
  | word s =>
    obtain ⟨hs, hrest⟩ := hfits
    rcases List.eq_nil_or_concat lead with rfl | ⟨front, last, rfl⟩
    · obtain rfl : s = d :: tail := ht
      obtain ⟨hword, hus⟩ := eq_and_eq_of_words hs hrest hw hbehind htext
      refine ⟨ts, ?_, (List.append_nil _).symm⟩
      rw [← hus, ← eq_tokens_of_tokens_eq_cons htokens, htokens, hword]
    · -- the token begins before the word, and what is before the word is no word
      have hlast := hbefore last (by
        rw [List.concat_eq_append, ← List.append_assoc, List.getLast?_concat, Option.mem_some])
      have hin : last ∈ s := by
        rw [show s = front.concat last ++ d :: tail from ht, List.concat_eq_append]
        simp
      rw [hs last hin] at hlast
      cases hlast

/-! ## Before a word -/

/-- What a token ends with when a word comes directly behind it: no character of a word, and
a dot only if it is that dot. -/
theorem Token.Cut.last_before_word {t : Token} {rest : List Char} {d : Char} (h : t.Cut rest)
    (hd : d ∈ rest.head?) (hword : isWordChar d = true) :
    ∀ e ∈ t.text.getLast?, isWordChar e = false ∧ (e = '.' → t = .mark '.') := by
  have hline : d ≠ '\n' := by
    rintro rfl
    exact absurd hword (by decide)
  have hlast {front : List Char} {e f : Char} (hf : f ∈ (front ++ [e]).getLast?) : e = f :=
    Option.some.inj (List.getLast?_concat.symm.trans hf)
  intro e he
  cases h with
  | line _ hrest => exact absurd (hrest d hd) hline
  | unclosed _ _ hrest => exact absurd (hrest d hd).1 hline
  | openBlock => cases hd
  | unescaped => cases hd
  | @block body =>
    obtain rfl := @hlast ('/' :: '*' :: (body ++ ['*'])) '/' e (by simpa [text] using he)
    exact ⟨by decide, fun hdot => absurd hdot (by decide)⟩
  | @closed q body _ hq =>
    -- a closed literal ends with its quote
    obtain rfl := @hlast (q :: body) q e he
    refine ⟨isWordChar_eq_false_of_isQuote hq, ?_⟩
    rintro rfl
    exact absurd hq (by decide)
  | word _ _ hrest =>
    rw [hrest d hd] at hword
    cases hword
  | @blank c _ hb =>
    obtain rfl := @hlast [] c e he
    refine ⟨isWordChar_eq_false_of_isBlank hb, ?_⟩
    rintro rfl
    exact absurd hb (by decide)
  | @mark c _ _ _ hw =>
    obtain rfl := @hlast [] c e he
    exact ⟨hw, fun hdot => by rw [hdot]⟩

/-- Before a word there is no character of a word, and no dot unless as a token. -/
theorem clear_before_word {cs w : List Char} {ts us : List Token}
    (h : tokens cs = ts ++ .word w :: us) :
    ∀ c ∈ (ts.flatMap Token.text).getLast?, isWordChar c = false ∧
      (c = '.' → ts.getLast? = some (.mark '.')) := by
  intro c hc
  rcases List.eq_nil_or_concat ts with rfl | ⟨front, t, rfl⟩
  · cases hc
  · rw [List.concat_eq_append] at h hc ⊢
    obtain ⟨d, hd, hword⟩ : ∃ d, w.head? = some d ∧ isWordChar d = true := by
      cases cut_of_tokens_eq h with
      | word hne hw =>
        obtain ⟨d, rest, rfl⟩ := List.exists_cons_of_ne_nil hne
        exact ⟨d, rfl, hw d List.mem_cons_self⟩
    rw [List.append_assoc, List.singleton_append] at h
    have hcut := cut_of_tokens_eq h
    have hhead : d ∈ ((Token.word w :: us).flatMap Token.text).head? := by
      rw [List.flatMap_cons, Token.text, List.head?_append, hd]
      rfl
    have hlast := List.getLast?_eq_some_getLast hcut.text_ne_nil
    rw [List.flatMap_append, List.flatMap_singleton, List.getLast?_append, hlast,
      Option.some_or, ← hlast] at hc
    obtain ⟨hclear, hdot⟩ := hcut.last_before_word hhead hword c hc
    exact ⟨hclear, fun h => by rw [List.getLast?_concat, hdot h]⟩

/-! ## Places -/

theorem afterAll_append (p : Place) (ts us : List Token) :
    p.afterAll (ts ++ us) = (p.afterAll ts).afterAll us :=
  List.foldl_append

/-- The place behind some tokens, from their text. -/
theorem afterAll_eq (p : Place) (ts : List Token) :
    (p.afterAll ts).offset = p.offset + byteLength (ts.flatMap Token.text) ∧
      (p.afterAll ts).line = p.line + UInt32.ofNat ((ts.flatMap Token.text).count '\n') := by
  induction ts generalizing p with
  | nil => exact ⟨rfl, (UInt32.add_zero _).symm⟩
  | cons t ts ih =>
    obtain ⟨hoffset, hline⟩ := ih (p.after t)
    rw [List.flatMap_cons, byteLength_append, List.count_append, UInt32.ofNat_add, ← Nat.add_assoc,
      ← UInt32.add_assoc]
    exact ⟨hoffset, hline⟩

/-- Only behind a dot is a place behind a dot. -/
theorem afterDot_afterAll_start {ts : List Token}
    (h : (ts.flatMap Token.text).getLast? ≠ some '.') :
    (Place.start.afterAll ts).afterDot = false := by
  rcases List.eq_nil_or_concat ts with rfl | ⟨us, t, rfl⟩
  · rfl
  · rw [List.concat_eq_append] at h ⊢
    rw [afterAll_append]
    refine beq_eq_false_iff_ne.2 ?_
    rintro rfl
    refine h ?_
    rw [List.flatMap_append, List.flatMap_singleton]
    exact List.getLast?_concat

/-- Tokens among which there is no dot do not end behind one. -/
theorem afterDot_afterAll {p : Place} (hp : p.afterDot = false) {ts : List Token}
    (h : .mark '.' ∉ ts) : (p.afterAll ts).afterDot = false := by
  rcases List.eq_nil_or_concat ts with rfl | ⟨us, t, rfl⟩
  · exact hp
  · rw [List.concat_eq_append] at h ⊢
    rw [afterAll_append]
    refine beq_eq_false_iff_ne.2 ?_
    rintro rfl
    exact h (List.mem_append_right us List.mem_cons_self)

/-- Behind a dot a place is behind a dot. -/
theorem afterDot_afterAll_of_getLast? {p : Place} {ts : List Token}
    (h : ts.getLast? = some (.mark '.')) : (p.afterAll ts).afterDot = true := by
  obtain ⟨front, rfl⟩ := List.getLast?_eq_some_iff.1 h
  rw [afterAll_append]
  exact beq_self_eq_true _

/-- A lexeme stands before the place behind it. -/
theorem offset_le_of_mem_lexemes {p : Place} {ts : List Token} {l : Lexeme}
    (h : l ∈ lexemes p ts) :
    p.offset ≤ l.place.offset ∧ l.place.offset + l.size ≤ (p.afterAll ts).offset := by
  induction ts generalizing p with
  | nil => cases h
  | cons t ts ih =>
    have hp : p.offset ≤ (p.after t).offset := Nat.le_add_right _ _
    rcases List.mem_cons.1 h with rfl | h
    · refine ⟨Nat.le_refl _, ?_⟩
      rw [(afterAll_eq p (t :: ts)).1, List.flatMap_cons, byteLength_append, ← Nat.add_assoc]
      exact Nat.le_add_right _ _
    · exact ⟨Nat.le_trans hp (ih h).1, (ih h).2⟩

end ModuleLookup
