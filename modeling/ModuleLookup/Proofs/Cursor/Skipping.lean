import ModuleLookup.Proofs.Cursor.Tokens

/-!
# Stepping over tokens

Comments, literals and trivia are stepped over in place just as the tokens are cut: the cursor
is left at the next place between two tokens.

* `skipComment_comment` and `skipComment_eq_none`, `skipString_literal`, `skipTrivia_eq`.
* `loop_inside` — the inside of a literal, where the cursor may come to stand in a character.
-/

namespace ModuleLookup.Cursor

section

variable {cs : List Char} {ts us gap : List Token} {t : Token} {bytes : List UInt8} {p : Nat}

/-! ## Comments -/

theorem encode_blockEnd : encode "*/" = bytesOf ['*', '/'] :=
  encode_eq_bytesOf "*/"

/-- A byte that is no asterisk does not end a block comment. -/
theorem blockRound_of_ne {d : Char} (h : peek bytes p = some d) (hd : d ≠ '*') :
    blockRound bytes p = .ok (.again (p + 1)) := by
  have hp := peek_lt h
  rw [peek, List.getElem?_eq_getElem hp, Option.map_some, Option.some.injEq] at h
  have hbyte : ('*'.toNat.toUInt8 == bytes[p]) = false := by
    refine beq_eq_false_iff_ne.2 fun hb => hd ?_
    rw [← h, ← hb]
    exact ofUInt8_toUInt8 (by decide)
  rw [blockRound, if_pos hp, bytesFrom, if_pos (Nat.le_of_lt hp), List.drop_eq_getElem_cons hp,
    encode_blockEnd, bytesOf_cons, bytesOf_singleton (by decide), List.singleton_append]
  show (if List.isPrefixOf _ _ = true then _ else _) = _
  rw [List.isPrefixOf_cons_cons, hbyte]
  rfl

/-- At a cut a block comment ends if its end mark stands there. -/
theorem blockRound_at (front : List Char) (c : Char) (cs : List Char) :
    blockRound (bytesOf (front ++ c :: cs)) (byteLength front)
      = .ok (if ['*', '/'] <+: c :: cs then
          .done (min (byteLength front + 2) (bytesOf (front ++ c :: cs)).length)
        else .again (byteLength front + 1)) := by
  have hp : byteLength front < (bytesOf (front ++ c :: cs)).length :=
    peek_lt (by rw [peek_at, List.head?_cons, Option.map_some])
  rw [blockRound, if_pos hp, bytesFrom_at]
  show (if List.isPrefixOf _ _ = true then _ else _) = _
  have hlow : ∀ d ∈ ['*', '/'], d.toNat < 128 := by
    intro d hd
    simp only [List.mem_cons, List.not_mem_nil, or_false] at hd
    rcases hd with rfl | rfl <;> decide
  rw [encode_blockEnd, isPrefixOf_bytesOf hlow]
  simp only [List.isPrefixOf_iff_prefix]
  split <;> rfl

/-- The inside of a block comment is stepped over with its end. -/
theorem loop_blockRound (front cs : List Char) :
    loop (bytesOf (front ++ cs)) (blockRound (bytesOf (front ++ cs))) (byteLength front)
      = .ok (byteLength (front ++ (Token.blockEnd cs).1)) := by
  fun_induction Token.blockEnd cs generalizing front with
  | case1 =>
    have hlength : (bytesOf (front ++ [])).length = byteLength front := by
      rw [List.append_nil, length_bytesOf]
    refine loop_done ?_
    rw [blockRound, hlength, if_neg (Nat.lt_irrefl _), Nat.min_eq_right (by omega),
      List.append_nil]
  | case2 rest =>
    have hsize : byteLength (front ++ ['*', '/']) = byteLength front + 2 := by
      rw [byteLength_append]
      rfl
    have hlength : byteLength front + 2 ≤ (bytesOf (front ++ '*' :: '/' :: rest)).length := by
      have hle := byteLength_le_length_bytesOf (front ++ ['*', '/']) rest
      rw [hsize, List.append_assoc] at hle
      exact hle
    refine loop_done ?_
    rw [blockRound_at, if_pos ⟨rest, rfl⟩, Nat.min_eq_left hlength, hsize]
  | case3 c rest hne ih =>
    have hmark : ¬['*', '/'] <+: c :: rest := by
      rintro ⟨tail, htail⟩
      obtain ⟨rfl, rfl⟩ := List.cons.inj htail
      exact hne tail rfl rfl
    have hgo := ih (front ++ [c])
    rw [← List.append_cons, ← List.append_cons] at hgo
    have hround : blockRound (bytesOf (front ++ c :: rest)) (byteLength front)
        = .ok (.again (byteLength front + 1)) := by
      rw [blockRound_at, if_neg hmark]
    rw [loop_again hround (peek_lt (peek_cons front c rest)) (Nat.lt_succ_self _),
      loop_tail (fun p d hpeek hd => blockRound_of_ne hpeek (ne_of_le hd (by decide))) rfl]
    exact hgo

theorem skipComment_of_ne (h : peek bytes p ≠ some '/') : skipComment bytes p = .ok none :=
  if_pos h

/-- What is seen behind a slash. -/
theorem peek_second (front : List Char) (d : Char) (rest : List Char) :
    peek (bytesOf (front ++ '/' :: d :: rest)) (byteLength front + 1) = some (lead d) := by
  have hpeek := peek_at (front ++ ['/']) (d :: rest)
  rw [← List.append_cons, byteLength_append] at hpeek
  exact hpeek

theorem skipComment_line (front : List Char) {body rest : List Char} (hbody : '\n' ∉ body)
    (hrest : ∀ c ∈ rest.head?, c = '\n') :
    skipComment (bytesOf (front ++ '/' :: '/' :: (body ++ rest))) (byteLength front)
      = .ok (some (byteLength (front ++ '/' :: '/' :: body))) := by
  have hfirst := peek_cons front '/' ('/' :: (body ++ rest))
  have hsecond := peek_second front '/' (body ++ rest)
  rw [lead_of_lt (by decide)] at hfirst hsecond
  have hrun : ∀ c ∈ '/' :: '/' :: body, (c != '\n') = true := by
    intro c hc
    simp only [List.mem_cons] at hc
    rcases hc with rfl | rfl | hc
    · decide
    · decide
    · exact bne_iff_ne.2 fun hline => hbody (hline ▸ hc)
  have hcoarse : Coarse (· != '\n') := coarse_bne (by decide)
  have hskip := @skipWhile_eq _ hcoarse front _ _ hrun fun c hc =>
    bne_eq_false_iff_eq.2 (hrest c hc)
  rw [skipComment, if_neg (not_not_intro hfirst), if_pos hsecond]
  exact congrArg (some <$> ·) hskip

theorem skipComment_block (front cs : List Char) :
    skipComment (bytesOf (front ++ '/' :: '*' :: cs)) (byteLength front)
      = .ok (some (byteLength (front ++ '/' :: '*' :: (Token.blockEnd cs).1))) := by
  have hfirst := peek_cons front '/' ('*' :: cs)
  have hsecond := peek_second front '*' cs
  rw [lead_of_lt (by decide)] at hfirst hsecond
  have hslash : ¬peek (bytesOf (front ++ '/' :: '*' :: cs)) (byteLength front + 1) = some '/' := by
    rw [hsecond]
    decide
  have hloop := loop_blockRound (front ++ ['/', '*']) cs
  rw [List.append_assoc, List.append_assoc, byteLength_append] at hloop
  rw [skipComment, if_neg (not_not_intro hfirst), if_neg hslash, if_pos hsecond]
  exact congrArg (some <$> ·) hloop

/-- **A comment is stepped over.** -/
theorem skipComment_comment {s : List Char} (h : tokens cs = ts ++ .comment s :: us) :
    skipComment (bytesOf cs) (offsetBehind ts)
      = .ok (some (offsetBehind (ts ++ [.comment s]))) := by
  have hcut := cut_of_tokens_eq h
  rw [text_of_tokens_eq h, offsetBehind, offsetBehind, List.flatMap_append, List.flatMap_cons,
    List.flatMap_singleton]
  generalize us.flatMap Token.text = rest at hcut
  cases hcut with
  | line hbody hrest => exact skipComment_line _ hbody hrest
  | @block body _ hbody =>
    have hblock := skipComment_block (ts.flatMap Token.text) (body ++ '*' :: '/' :: rest)
    rw [Token.blockEnd_append hbody] at hblock
    rw [Token.text, List.cons_append, List.cons_append, List.append_assoc body]
    exact hblock
  | @openBlock body hbody =>
    have hblock := skipComment_block (ts.flatMap Token.text) body
    rw [Token.blockEnd_of_not_infix hbody] at hblock
    rw [List.append_nil]
    exact hblock

/-- Nothing else is taken for a comment. -/
theorem skipComment_eq_none (h : tokens cs = ts ++ us)
    (hne : ∀ s, us.head? ≠ some (.comment s)) :
    skipComment (bytesOf cs) (offsetBehind ts) = .ok none := by
  cases us with
  | nil => exact skipComment_of_ne (by rw [peek_end h]; simp)
  | cons t us =>
    have hcut := cut_of_tokens_eq h
    have hpeek := peek_token h
    by_cases hslash : sign t = '/'
    · -- only a mark looks like the begin of a comment
      have hmark : t = .mark '/' := by
        cases t with
        | comment s => exact absurd rfl (hne s)
        | literal q =>
          have hq := hcut.isQuote
          rw [show q = '/' from hslash] at hq
          exact absurd hq (by decide)
        | word w =>
          have hw := isWordChar_sign h
          rw [hslash] at hw
          exact absurd hw (by decide)
        | blank c =>
          cases hcut with
          | blank hb =>
            rw [show c = '/' from hslash] at hb
            exact absurd hb (by decide)
        | mark c => rw [show c = '/' from hslash]
      subst hmark
      cases hcut with
      | mark _ _ _ hcomment =>
        have hnext : peek (bytesOf cs) (offsetBehind ts + 1)
            = (us.flatMap Token.text).head?.map lead := by
          have hbehind : offsetBehind (ts ++ [.mark '/']) = offsetBehind ts + 1 := by
            rw [offsetBehind_append]
            rfl
          rw [← hbehind]
          exact peek_offsetBehind (by rw [h, List.append_assoc]; rfl)
        have hneither (d : Char) (hd : d = '/' ∨ d = '*') :
            peek (bytesOf cs) (offsetBehind ts + 1) ≠ some d := by
          rw [hnext]
          intro hseen
          obtain ⟨c, hc, hlead⟩ := Option.map_eq_some_iff.1 hseen
          obtain ⟨hslash, hstar⟩ := hcomment rfl c hc
          rcases hd with rfl | rfl
          · exact hslash ((lead_eq_iff (by decide)).1 hlead)
          · exact hstar ((lead_eq_iff (by decide)).1 hlead)
        rw [skipComment, if_neg (by rw [hpeek]; exact not_not_intro rfl),
          if_neg (hneither '/' (.inl rfl)), if_neg (hneither '*' (.inr rfl))]
    · refine skipComment_of_ne ?_
      rw [hpeek]
      exact fun hs => hslash (Option.some.inj hs)

/-! ## Literals -/

theorem literalRound_again {q d : Char} (h : peek bytes p = some d) (hescape : d ≠ '\\')
    (hline : ¬(d = '\n' ∧ q ≠ '\x60')) (hquote : d ≠ q) :
    literalRound bytes q p = .ok (.again (p + 1)) := by
  rw [literalRound, h]
  exact (if_neg hescape).trans ((if_neg hline).trans (if_neg hquote))

/-- The inside of a literal is stepped over. -/
theorem loop_inside {q : Char} (hq : isQuote q = true) {body : List Char}
    (hbody : Token.Inside q body) {front rest : List Char}
    (hbytes : bytes = bytesOf (front ++ (body ++ rest))) :
    loop bytes (literalRound bytes q) (byteLength front)
      = loop bytes (literalRound bytes q) (byteLength (front ++ body)) := by
  have hlow := toNat_lt_of_isWordChar_eq_false (isWordChar_eq_false_of_isQuote hq)
  -- nothing outside of ASCII ends a literal
  have hhigh (p : Nat) (d : Char) (hpeek : peek bytes p = some d) (hd : 128 ≤ d.toNat) :
      literalRound bytes q p = .ok (.again (p + 1)) :=
    literalRound_again hpeek (ne_of_le hd (by decide))
      (fun hline => ne_of_le hd (by decide) hline.1) (ne_of_le hd hlow)
  induction hbody generalizing front with
  | nil => rw [List.append_nil]
  | @char c body hquote hescape hline _ ih =>
    have hpeek := peek_cons front c (body ++ rest)
    rw [← List.cons_append, ← hbytes] at hpeek
    have hround : literalRound bytes q (byteLength front)
        = .ok (.again (byteLength front + 1)) := by
      refine literalRound_again hpeek ?_ ?_ ?_
      · exact fun h => hescape ((lead_eq_iff (by decide)).1 h)
      · exact fun h => h.2 (hline ((lead_eq_iff (by decide)).1 h.1))
      · exact fun h => hquote ((lead_eq_iff hlow).1 h)
    rw [loop_again hround (peek_lt hpeek) (Nat.lt_succ_self _), loop_tail hhigh hbytes,
      ih (by rw [hbytes, ← List.append_cons]; rfl), ← List.append_cons]
  | @escape c body _ ih =>
    have hpeek := peek_cons front '\\' (c :: body ++ rest)
    rw [← List.cons_append, ← hbytes] at hpeek
    have hround : literalRound bytes q (byteLength front)
        = .ok (.again (byteLength front + 2)) := by
      rw [literalRound, hpeek]
      exact if_pos (lead_of_lt (by decide))
    -- the place behind both bytes may be inside of the escaped character
    have htail : bytes = bytesOf ((front ++ ['\\']) ++ c :: (body ++ rest)) := by
      rw [hbytes, ← List.append_cons]
      rfl
    have hskip := loop_tail hhigh htail
    rw [byteLength_append] at hskip
    rw [loop_again hround (peek_lt hpeek) (by omega)]
    refine hskip.trans ?_
    rw [ih (htail.trans (congrArg bytesOf (List.append_cons _ _ _))), ← List.append_cons,
      ← List.append_cons]

/-- A literal ends at its quote. -/
theorem loop_closed {q : Char} (hq : isQuote q = true) {body : List Char}
    (hbody : Token.Inside q body) {front rest : List Char}
    (hbytes : bytes = bytesOf (front ++ (body ++ q :: rest))) :
    loop bytes (literalRound bytes q) (byteLength front)
      = .ok (some (byteLength (front ++ body)), byteLength (front ++ body) + 1) := by
  have hlow := toNat_lt_of_isWordChar_eq_false (isWordChar_eq_false_of_isQuote hq)
  have hpeek : peek bytes (byteLength (front ++ body)) = some q := by
    rw [hbytes, ← List.append_assoc, peek_cons, lead_of_lt hlow]
  have hline : ¬(q = '\n' ∧ q ≠ '\x60') := by
    rintro ⟨rfl, -⟩
    exact absurd hq (by decide)
  rw [loop_inside hq hbody hbytes]
  refine loop_done ?_
  rw [literalRound, hpeek]
  exact (if_neg (Token.ne_backslash_of_isQuote hq)).trans ((if_neg hline).trans (if_pos rfl))

/-- It ends without its quote in front of a newline, or with the text. -/
theorem loop_unclosed {q : Char} (hq : isQuote q = true) {body : List Char}
    (hbody : Token.Inside q body) {front rest : List Char}
    (hrest : ∀ c ∈ rest.head?, c = '\n' ∧ q ≠ '\x60')
    (hbytes : bytes = bytesOf (front ++ (body ++ rest))) :
    loop bytes (literalRound bytes q) (byteLength front)
      = .ok (none, byteLength (front ++ body)) := by
  have hpeek : peek bytes (byteLength (front ++ body)) = rest.head?.map lead := by
    rw [hbytes, ← List.append_assoc, peek_at]
  rw [loop_inside hq hbody hbytes]
  refine loop_done ?_
  cases rest with
  | nil =>
    have hlength : bytes.length = byteLength (front ++ body) := by
      rw [hbytes, List.append_nil, length_bytesOf]
    rw [literalRound, hpeek, hlength]
    exact congrArg (fun p => Except.ok (Round.done (none, p))) (Nat.min_self _)
  | cons c rest =>
    obtain ⟨rfl, htemplate⟩ := hrest c rfl
    rw [literalRound, hpeek]
    exact (if_neg (by decide)).trans (if_pos ⟨lead_of_lt (by decide), htemplate⟩)

/-- A backslash at the end takes a byte that is not there, and the cursor is moved back. -/
theorem loop_unescaped {q : Char} (hq : isQuote q = true) {body : List Char}
    (hbody : Token.Inside q body) {front : List Char}
    (hbytes : bytes = bytesOf (front ++ (body ++ ['\\']))) :
    loop bytes (literalRound bytes q) (byteLength front)
      = .ok (none, byteLength (front ++ (body ++ ['\\']))) := by
  have hpeek : peek bytes (byteLength (front ++ body)) = some '\\' := by
    rw [hbytes, ← List.append_assoc, peek_cons, lead_of_lt (by decide)]
  have hround : literalRound bytes q (byteLength (front ++ body))
      = .ok (.again (byteLength (front ++ body) + 2)) := by
    rw [literalRound, hpeek]
    exact if_pos rfl
  have hlength : bytes.length = byteLength (front ++ (body ++ ['\\'])) := by
    rw [hbytes, length_bytesOf]
  have hend : byteLength (front ++ (body ++ ['\\'])) = byteLength (front ++ body) + 1 := by
    rw [← List.append_assoc, byteLength_append]
    rfl
  have hbeyond : peek bytes (byteLength (front ++ body) + 2) = none := by
    rw [peek, List.getElem?_eq_none (by omega)]
    rfl
  rw [loop_inside hq hbody hbytes, loop_again hround (peek_lt hpeek) (by omega)]
  refine loop_done ?_
  rw [literalRound, hbeyond, hlength]
  exact congrArg (fun p => Except.ok (Round.done (none, p))) (by omega)

theorem charAt_of_peek {c : Char} (h : peek bytes p = some c) : charAt bytes p = .ok c := by
  rw [charAt, h]

/-- **A literal is stepped over**, to the quote that closes it if there is one. -/
theorem skipString_literal {q : Char} {body : List Char} {closed : Bool}
    (h : tokens cs = ts ++ .literal q body closed :: us) :
    skipString (bytesOf cs) (offsetBehind ts)
      = .ok (if closed then some (offsetBehind ts + 1 + byteLength body) else none,
        offsetBehind (ts ++ [.literal q body closed])) := by
  have hcut := cut_of_tokens_eq h
  have hquote := utf8Size_of_lt
    (toNat_lt_of_isWordChar_eq_false (isWordChar_eq_false_of_isQuote hcut.isQuote))
  have htext := text_of_tokens_eq h
  rw [List.flatMap_cons] at htext
  have hnext : offsetBehind (ts ++ [.literal q body closed])
      = offsetBehind ts + 1 + byteLength body + if closed then 1 else 0 := by
    rw [offsetBehind_append, offsetBehind_singleton, Token.size]
    cases closed <;> simp [Token.text, hquote] <;> omega
  have hopening : byteLength (ts.flatMap Token.text ++ [q]) = offsetBehind ts + 1 := by
    rw [byteLength_append, byteLength_cons, byteLength_nil, hquote]
    rfl
  have hinside : byteLength (ts.flatMap Token.text ++ [q] ++ body)
      = offsetBehind ts + 1 + byteLength body := by
    rw [byteLength_append, hopening]
  rw [skipString, charAt_of_peek (peek_token h), hnext]
  show loop (bytesOf cs) (literalRound (bytesOf cs) q) (offsetBehind ts + 1) = _
  rw [← hopening]
  generalize us.flatMap Token.text = rest at htext hcut
  cases hcut with
  | closed hq hbody =>
    have hbytes : bytesOf cs = bytesOf (ts.flatMap Token.text ++ [q] ++ (body ++ q :: rest)) := by
      rw [htext, Token.text]
      simp
    rw [loop_closed hq hbody hbytes, hinside, hopening]
    rfl
  | unclosed hq hbody hrest =>
    rw [loop_unclosed hq hbody hrest (by rw [htext, Token.text]; simp), hinside, hopening]
    rfl
  | unescaped hq hbody =>
    rw [loop_unescaped hq hbody (by rw [htext, Token.text]; simp), hinside, hopening]
    rfl

/-! ## Trivia -/

/-- Without blanks in front the cursor is where it was. -/
theorem skipWhile_isBlank (h : tokens cs = ts ++ us) (hus : ∀ c, us.head? ≠ some (.blank c)) :
    skipWhile (bytesOf cs) isBlank (offsetBehind ts) = .ok (offsetBehind ts) := by
  refine skipWhile_of_not_any ?_
  cases us with
  | nil => rw [peek_end h]; rfl
  | cons t us =>
    rw [peek_token h, Option.any_some, ← Bool.not_eq_true, isBlank_sign h]
    rintro ⟨c, rfl⟩
    exact hus c rfl

/-- A round that does the same as a later one gets as far. -/
theorem loop_of_round_eq {α : Type} {round : Nat → Checked (Round α)} {q : Nat} {a : α}
    (h : round p = round q) (hpq : p ≤ q) (hq : loop bytes round q = .ok a) :
    loop bytes round p = .ok a := by
  rw [loop] at hq ⊢
  rw [h]
  split at hq
  · cases hq
  · exact hq
  · split at hq
    · next hnext => exact (if_pos (by omega)).trans hq
    · cases hq

/-- **Trivia is stepped over.** -/
theorem skipTrivia_eq (h : tokens cs = ts ++ (gap ++ us))
    (hgap : ∀ t ∈ gap, t.isTrivia = true) (hus : ∀ t ∈ us.head?, t.isTrivia = false) :
    skipTrivia (bytesOf cs) (offsetBehind ts) = .ok (offsetBehind (ts ++ gap)) := by
  induction gap generalizing ts with
  | nil =>
    rw [List.nil_append] at h
    have hblank := skipWhile_isBlank h fun c hc => Bool.noConfusion (hus _ hc)
    have hcomment := skipComment_eq_none h fun s hs => Bool.noConfusion (hus _ hs)
    refine loop_done ?_
    rw [triviaRound, hblank, ok_bind, hcomment, ok_bind, List.append_nil]
    rfl
  | cons t gap ih =>
    have hbehind : tokens cs = (ts ++ [t]) ++ (gap ++ us) := by
      rw [h, List.append_assoc]
      rfl
    have hgo := ih hbehind fun u hu => hgap u (List.mem_cons_of_mem t hu)
    rw [← List.append_cons] at hgo
    cases t with
    | blank c =>
      -- the round steps over the blank before anything else
      have hany : (peek (bytesOf cs) (offsetBehind ts)).any isBlank = true := by
        rw [peek_token h, Option.any_some]
        exact (isBlank_sign h).2 ⟨c, rfl⟩
      have hsize : (Token.blank c).size = 1 := by
        cases cut_of_tokens_eq h with
        | blank hb =>
          exact utf8Size_of_lt (toNat_lt_of_isWordChar_eq_false (isWordChar_eq_false_of_isBlank hb))
      have hround : triviaRound (bytesOf cs) (offsetBehind ts)
          = triviaRound (bytesOf cs) (offsetBehind (ts ++ [.blank c])) := by
        rw [triviaRound, triviaRound, skipWhile_of_any hany, offsetBehind_append,
          offsetBehind_singleton, hsize]
      refine loop_of_round_eq hround ?_ hgo
      rw [offsetBehind_append]
      exact Nat.le_add_right _ _
    | comment s =>
      have hblank := skipWhile_isBlank h (by simp)
      have hcomment := skipComment_comment h
      have hround : triviaRound (bytesOf cs) (offsetBehind ts)
          = .ok (.again (offsetBehind (ts ++ [.comment s]))) := by
        rw [triviaRound, hblank, ok_bind, hcomment, ok_bind]
        rfl
      rw [skipTrivia, loop_again hround (peek_lt (peek_token h)) (offsetBehind_lt h)]
      exact hgo
    | literal | word | mark => exact absurd (hgap _ List.mem_cons_self) Bool.false_ne_true

end

end ModuleLookup.Cursor
