import ModuleLookup.Proofs.Cursor.Skipping

/-!
# Keywords under the cursor

A keyword is seen between two tokens just where it is one, and never inside of a word. So it
does not matter where in a word the cursor stands.

* `startsKeyword_eq` — between two tokens; `InWord` and `InWord.keyword` — inside of a word.
* `inWord_of_isCode` — only words have places inside of them that are not stepped over at once.
-/

namespace ModuleLookup.Cursor

section

variable {cs : List Char} {ts us : List Token} {t : Token} {bytes : List UInt8} {p : Nat}

/-! ## Between two tokens -/

/-- The words that are looked for. -/
def keywords : List String :=
  ["require", "import", "export", "from"]

theorem keyword_spec : ∀ keyword ∈ keywords, keyword.toList ≠ [] ∧
    ∀ c ∈ keyword.toList, isWordChar c = true ∧ c.toNat < 128 := by
  have hall : keywords.all fun keyword => keyword.toList ≠ [] ∧
      keyword.toList.all fun c => isWordChar c ∧ c.toNat < 128 := by
    decide
  intro keyword hk
  have hkeyword := List.all_eq_true.1 hall keyword hk
  simpa using hkeyword

/-- Before a word, only a dot joins it to what comes before. -/
theorem isJoined_eq {w : List Char} (h : tokens cs = ts ++ .word w :: us) :
    isJoined (bytesOf cs) (offsetBehind ts) = .ok (Place.start.afterAll ts).afterDot := by
  have hclear := clear_before_word h
  have hdot := @afterDot_afterAll_start ts
  have htext := text_of_tokens_eq h
  rw [offsetBehind]
  generalize ts.flatMap Token.text = front at *
  rcases List.eq_nil_or_concat front with rfl | ⟨front, c, rfl⟩
  · rw [hdot (by simp)]
    rfl
  · rw [List.concat_eq_append] at *
    obtain ⟨hword, hlast⟩ := hclear c List.getLast?_concat
    have hlow := toNat_lt_of_isWordChar_eq_false hword
    have hsize : byteLength (front ++ [c]) = byteLength front + 1 := by
      rw [byteLength_append, byteLength_cons, utf8Size_of_lt hlow]
      rfl
    have hpeek : peek (bytesOf cs) (byteLength front) = some c := by
      rw [htext, ← List.append_cons, peek_cons, lead_of_lt hlow]
    rw [isJoined, hsize, if_neg (Nat.succ_ne_zero _), Nat.add_sub_cancel, charAt_of_peek hpeek,
      ok_bind, hword, Bool.false_or]
    by_cases hc : c = '.'
    · rw [afterDot_afterAll_of_getLast? (hlast hc), beq_iff_eq.2 hc]
      rfl
    · rw [hdot (by rw [List.getLast?_concat]; exact fun hs => hc (Option.some.inj hs)),
        beq_eq_false_iff_ne.2 hc]
      rfl

/-- **A keyword is seen between two tokens** just where it is one. -/
theorem atKeyword_eq {keyword : String} (hk : keyword ∈ keywords)
    (h : tokens cs = ts ++ t :: us) :
    atKeyword (bytesOf cs) keyword (offsetBehind ts)
      = .ok ((lexemeBehind ts t).isKeyword keyword) := by
  obtain ⟨hne, hchars⟩ := keyword_spec keyword hk
  have htext := text_of_tokens_eq h
  have hfrom : bytesFrom (bytesOf cs) (offsetBehind ts)
      = .ok (bytesOf ((t :: us).flatMap Token.text)) := by
    rw [htext, offsetBehind, bytesFrom_at]
  rw [atKeyword, hfrom, ok_bind, encode_eq_bytesOf,
    isPrefixOf_bytesOf fun c hc => (hchars c hc).2]
  cases hprefix : keyword.toList.isPrefixOf ((t :: us).flatMap Token.text) with
  | false =>
    have hkey : (lexemeBehind ts t).isKeyword keyword = false := by
      rw [← Bool.not_eq_true, Lexeme.isKeyword_iff]
      rintro ⟨-, rfl⟩
      rw [← Bool.not_eq_true, List.isPrefixOf_iff_prefix, List.flatMap_cons] at hprefix
      exact hprefix (List.prefix_append _ _)
    rw [hkey]
    rfl
  | true =>
    obtain ⟨behind, hbehind⟩ := List.isPrefixOf_iff_prefix.1 hprefix
    obtain ⟨c, rest, hword⟩ := List.exists_cons_of_ne_nil hne
    -- a token that begins like a keyword is a word
    obtain ⟨w, rfl⟩ : ∃ w, t = .word w := by
      have hpeek := peek_token h
      obtain ⟨hc, hlow⟩ := hchars c (by rw [hword]; exact List.mem_cons_self)
      rw [peek_offsetBehind h, ← hbehind, hword, List.cons_append, List.head?_cons,
        Option.map_some, lead_of_lt hlow, Option.some.injEq] at hpeek
      exact exists_word_of_sign h (by rw [← hpeek]; exact hc)
    have hnext : (peek (bytesOf cs) (offsetBehind ts + keyword.utf8ByteSize)).any isWordChar
        = behind.head?.any isWordChar := by
      rw [htext, ← hbehind, offsetBehind, ← byteLength_toList, ← byteLength_append,
        ← List.append_assoc, peek_at]
      cases behind with
      | nil => rfl
      | cons d behind => exact coarse_isWordChar.lead d
    rw [if_pos rfl, isJoined_eq h, ok_bind, hnext]
    rw [List.flatMap_cons, Token.text] at hbehind
    obtain ⟨hw, hrest⟩ := fits_of_tokens_eq h
    cases hany : behind.head?.any isWordChar with
    | false =>
      have hends : ∀ d ∈ behind.head?, isWordChar d = false := by
        intro d hd
        rw [Option.mem_def.1 hd] at hany
        exact hany
      obtain ⟨rfl, -⟩ := eq_and_eq_of_words (fun d hd => (hchars d hd).1) hends hw hrest hbehind
      rw [Lexeme.isKeyword, lexemeBehind, beq_self_eq_true, Bool.and_true]
      cases (Place.start.afterAll ts).afterDot <;> rfl
    | true =>
      have hkey : (lexemeBehind ts (.word w)).isKeyword keyword = false := by
        rw [← Bool.not_eq_true, Lexeme.isKeyword_iff]
        rintro ⟨-, heq⟩
        rw [Token.word.inj heq] at hbehind
        rw [List.append_cancel_left hbehind] at hany
        obtain ⟨d, hd, hdw⟩ := (Option.any_eq_true _ _).1 hany
        rw [hrest d hd] at hdw
        cases hdw
      rw [hkey]
      cases (Place.start.afterAll ts).afterDot <;> rfl

/-- Inside a word no keyword is seen. -/
theorem atKeyword_inside {keyword : String} {c : Char} (hpos : 0 < p) (hp : p ≤ bytes.length)
    (hpeek : peek bytes (p - 1) = some c) (hc : isWordChar c = true) :
    atKeyword bytes keyword p = .ok false := by
  rw [atKeyword, bytesFrom, if_pos hp, ok_bind, isJoined, if_neg (Nat.pos_iff_ne_zero.1 hpos),
    charAt_of_peek hpeek, ok_bind, hc, Bool.true_or]
  split <;> rfl

theorem startsKeyword_inside {keyword : String} {c d : Char} (hpos : 0 < p)
    (hp : p ≤ bytes.length) (hpeek : peek bytes (p - 1) = some c) (hc : isWordChar c = true) :
    startsKeyword bytes d keyword p = .ok false := by
  rw [startsKeyword]
  split
  · exact atKeyword_inside hpos hp hpeek hc
  · rfl

theorem startsKeyword_eq {keyword : String} (hk : keyword ∈ keywords)
    (h : tokens cs = ts ++ t :: us) :
    startsKeyword (bytesOf cs) (sign t) keyword (offsetBehind ts)
      = .ok ((lexemeBehind ts t).isKeyword keyword) := by
  rw [startsKeyword]
  split
  · exact atKeyword_eq hk h
  · next hfirst =>
    obtain ⟨hne, hchars⟩ := keyword_spec keyword hk
    have hkey : (lexemeBehind ts t).isKeyword keyword = false := by
      rw [← Bool.not_eq_true, Lexeme.isKeyword_iff]
      rintro ⟨-, rfl⟩
      obtain ⟨c, rest, hword⟩ := List.exists_cons_of_ne_nil hne
      have hlow := (hchars c (by rw [hword]; exact List.mem_cons_self)).2
      rw [sign, hword, List.headD_cons, lead_of_lt hlow] at hfirst
      exact hfirst rfl
    rw [hkey]

theorem offsetBehind_keyword (ts : List Token) (keyword : String) :
    offsetBehind (ts ++ [.word keyword.toList]) = offsetBehind ts + keyword.utf8ByteSize := by
  rw [offsetBehind_append, offsetBehind_singleton, Token.size, Token.text, byteLength_toList]

/-! ## Inside of words -/

/-- A place inside of a word. -/
def InWord (bytes : List UInt8) (p : Nat) : Prop :=
  0 < p ∧ (∃ c, peek bytes (p - 1) = some c ∧ isWordChar c = true) ∧
    ∃ c, peek bytes p = some c ∧ isWordChar c = true

theorem size_of_not_word (h : tokens cs = ts ++ t :: us) (hcode : t.isCode = true)
    (hword : ∀ w, t ≠ .word w) : t.size = 1 := by
  have hfits := fits_of_tokens_eq h
  cases t with
  | comment | literal => cases hcode
  | word w => exact absurd rfl (hword w)
  | blank c | mark c => exact utf8Size_of_lt (toNat_lt_of_isWordChar_eq_false hfits)

/-- Code has places inside of its tokens only in words. -/
theorem inWord_of_isCode (h : tokens cs = ts ++ t :: us) (hcode : t.isCode = true) {q : Nat}
    (hp : offsetBehind ts < q) (hq : q < offsetBehind (ts ++ [t])) : InWord (bytesOf cs) q := by
  rw [offsetBehind_append, offsetBehind_singleton] at hq
  by_cases hword : ∃ w, t = .word w
  · obtain ⟨w, rfl⟩ := hword
    have hw := (fits_of_tokens_eq h).1
    have htext := text_of_tokens_eq h
    rw [List.flatMap_cons] at htext
    have hseen (i : Nat) (hi : i < (Token.word w).size) :
        ∃ c, peek (bytesOf cs) (offsetBehind ts + i) = some c ∧ isWordChar c = true := by
      rw [htext]
      exact exists_peek coarse_isWordChar hw hi
    obtain ⟨i, rfl⟩ := Nat.exists_eq_add_of_lt hp
    exact ⟨Nat.succ_pos _, hseen i (by omega), hseen (i + 1) (by omega)⟩
  · rw [size_of_not_word h hcode fun w hw => hword ⟨w, hw⟩] at hq
    omega

/-- Inside of a word nothing is looked for. -/
theorem InWord.keyword {q : Nat} (h : InWord bytes q) (keyword : String) (c : Char) :
    startsKeyword bytes c keyword q = .ok false := by
  obtain ⟨hpos, ⟨d, hbefore, hd⟩, e, hpeek, -⟩ := h
  exact startsKeyword_inside hpos (Nat.le_of_lt (peek_lt hpeek)) hbefore hd

theorem skipComment_of_isWordChar {c : Char} (h : peek bytes p = some c)
    (hc : isWordChar c = true) : skipComment bytes p = .ok none := by
  refine skipComment_of_ne ?_
  rw [h]
  rintro heq
  rw [Option.some.inj heq] at hc
  exact absurd hc (by decide)

end

end ModuleLookup.Cursor
