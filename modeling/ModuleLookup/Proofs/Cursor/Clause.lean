import ModuleLookup.Proofs.Cursor.Call

/-!
# Clauses under the cursor

A clause is read token by token, like the machine does, up to its limit. The limit may lie inside
of a word, and then the cursor is left there.

* `clauseRound_eq` — one token; `behindFrom_eq` and `reads_sought` — what stands behind `from`.
* `reads_clause` — a clause; `reads_imported` — everything that may stand behind `import`.
-/

namespace ModuleLookup.Cursor

open Stage (code argument imported clause sought stringBody? refer enter inClause)

section

variable {cs : List Char} {ts us gap : List Token} {t : Token} {bytes : List UInt8} {p : Nat}
  {kind : Reference.Kind}

/-! ## Tokens of a clause -/

/-- The marks that end a clause. -/
theorem mark_spec {c : Char} (h : c ∈ [';', '=', '(']) :
    isQuote c = false ∧ isBlank c = false ∧ isWordChar c = false ∧ c ≠ '/' := by
  simp only [List.mem_cons, List.not_mem_nil, or_false] at h
  rcases h with rfl | rfl | rfl <;> decide

theorem sign_mem_iff (h : tokens cs = ts ++ t :: us) :
    sign t ∈ [';', '=', '('] ↔ ∃ c ∈ [';', '=', '('], t = .mark c := by
  constructor
  · intro hmem
    obtain ⟨hq, hb, hw, hslash⟩ := mark_spec hmem
    exact ⟨sign t, hmem, (sign_eq_iff h hq hb hw hslash).1 rfl⟩
  · rintro ⟨c, hmem, rfl⟩
    exact hmem

/-- What is seen of a token that ends a clause. -/
theorem endsClause_iff (h : tokens cs = ts ++ t :: us) :
    (lexemeBehind ts t).endsClause = true ↔
      (isQuote (sign t) = true ∨ sign t ∈ [';', '=', '(']) ∨
        (lexemeBehind ts t).isKeyword "import" = true ∨
        (lexemeBehind ts t).isKeyword "export" = true := by
  rw [isQuote_sign h, sign_mem_iff h, Lexeme.isKeyword_iff, Lexeme.isKeyword_iff]
  cases t with
  | word w =>
    rw [Lexeme.endsClause, lexemeBehind, Lexeme.opensClause, Bool.or_eq_true, Lexeme.isKeyword_iff,
      Lexeme.isKeyword_iff]
    simp
  | _ => simp [Lexeme.endsClause, lexemeBehind]

/-- A round of a clause does what the machine does with the next token. -/
theorem clauseRound_eq (h : tokens cs = ts ++ t :: us) {limit : Nat}
    (hp : offsetBehind ts < limit) (hne : ∀ s, t ≠ .comment s) :
    clauseRound (bytesOf cs) limit (offsetBehind ts)
      = if (lexemeBehind ts t).endsClause then .ok (.done (none, offsetBehind ts))
        else if (lexemeBehind ts t).isKeyword "from" then
          behindFrom (bytesOf cs) (offsetBehind ts + "from".utf8ByteSize)
        else .ok (.again (offsetBehind ts + 1)) := by
  have hcomment := skipComment_eq_none h fun s hs => hne s (Option.some.inj hs)
  have hkeyword {keyword : String} (hk : keyword ∈ keywords) := startsKeyword_eq hk h
  have hends := endsClause_iff h
  rw [clauseRound, if_pos hp, hcomment, ok_bind]
  show (do let c ← charAt _ _; _) = _
  rw [charAt_of_peek (peek_token h), ok_bind]
  by_cases hsign : isQuote (sign t) = true ∨ sign t ∈ [';', '=', '(']
  · rw [if_pos hsign, if_pos (hends.2 (.inl hsign))]
    rfl
  rw [if_neg hsign, hkeyword (by decide), ok_bind]
  by_cases himport : (lexemeBehind ts t).isKeyword "import" = true
  · rw [if_pos himport, if_pos (hends.2 (.inr (.inl himport)))]
    rfl
  rw [if_neg himport, hkeyword (by decide), ok_bind]
  by_cases hexport : (lexemeBehind ts t).isKeyword "export" = true
  · rw [if_pos hexport, if_pos (hends.2 (.inr (.inr hexport)))]
    rfl
  have hnone : ¬(lexemeBehind ts t).endsClause = true := by
    rw [hends]
    rintro (hs | hi | he)
    · exact hsign hs
    · exact himport hi
    · exact hexport he
  rw [if_neg hexport, hkeyword (by decide), ok_bind, if_neg hnone]
  rfl

/-- Inside of a word it goes on. -/
theorem clauseRound_inside {q limit : Nat} (h : InWord bytes q) (hq : q < limit) :
    clauseRound bytes limit q = .ok (.again (q + 1)) := by
  have hkeyword := h.keyword
  obtain ⟨-, -, c, hpeek, hc⟩ := h
  have hsign : ¬(isQuote c = true ∨ c ∈ [';', '=', '(']) := by
    rintro (hquote | hmark)
    · rw [isWordChar_eq_false_of_isQuote hquote] at hc
      cases hc
    · rw [(mark_spec hmark).2.2.1] at hc
      cases hc
  rw [clauseRound, if_pos hq, skipComment_of_isWordChar hpeek hc, ok_bind]
  show (do let c ← charAt _ _; _) = _
  rw [charAt_of_peek hpeek, ok_bind, if_neg hsign, hkeyword, ok_bind, if_neg Bool.false_ne_true,
    hkeyword, ok_bind, if_neg Bool.false_ne_true, hkeyword, ok_bind]
  rfl

/-- What is left up to a place behind a token. -/
theorem sub_offsetBehind (limit : Nat) (ts : List Token) (t : Token) :
    limit - offsetBehind (ts ++ [t]) = limit - offsetBehind ts - (lexemeBehind ts t).size := by
  rw [offsetBehind_append, offsetBehind_singleton, Nat.sub_sub]
  rfl

/-- What a clause may still take behind some trivia. -/
theorem finds_sought_gap (kind : Reference.Kind) (limit : Nat)
    (hgap : ∀ t ∈ gap, t.isTrivia = true) (ts us : List Token) :
    finds (sought kind (limit - offsetBehind ts)) ts (gap ++ us)
      = finds (sought kind (limit - offsetBehind (ts ++ gap))) (ts ++ gap) us := by
  induction gap generalizing ts with
  | nil => rw [List.nil_append, List.append_nil]
  | cons t gap ih =>
    have htrivia : (lexemeBehind ts t).isTrivia = true := hgap t List.mem_cons_self
    have hstep : (sought kind (limit - offsetBehind ts)).step (lexemeBehind ts t)
        = (sought kind (limit - offsetBehind (ts ++ [t])), none) := by
      rw [Stage.step, if_pos htrivia, sub_offsetBehind]
    rw [List.cons_append, finds_of_step hstep, ih fun u hu => hgap u (List.mem_cons_of_mem t hu),
      ← List.append_cons]

/-- A token that a clause takes. -/
theorem finds_clause_cons (kind : Reference.Kind) {limit : Nat} (hp : offsetBehind ts < limit)
    (hends : (lexemeBehind ts t).endsClause = false) (us : List Token) :
    finds (clause kind (limit - offsetBehind ts)) ts (t :: us)
      = finds (if (lexemeBehind ts t).isKeyword "from" then
          sought kind (limit - offsetBehind (ts ++ [t]))
        else clause kind (limit - offsetBehind (ts ++ [t]))) (ts ++ [t]) us := by
  refine finds_of_step ?_ us
  have hnot : ¬(limit - offsetBehind ts = 0 ∨ (lexemeBehind ts t).endsClause = true) := by
    rw [hends]
    simp only [Bool.false_eq_true, or_false]
    omega
  rw [Stage.step, Stage.inClause_eq, if_neg hnot, sub_offsetBehind]

/-- A clause is given up at what ends it. -/
theorem step_clause_of_ends {n : Nat} (hends : n = 0 ∨ (lexemeBehind ts t).endsClause = true) :
    (clause kind n).step (lexemeBehind ts t) = code.step (lexemeBehind ts t) := by
  show _ = (enter _, none)
  rw [Stage.step, Stage.inClause_eq, if_pos hends]

/-- Code that a clause takes is stepped over, up to the limit. -/
theorem loop_clause_of_isCode {limit : Nat} (h : tokens cs = ts ++ t :: us)
    (hp : offsetBehind ts < limit) (hcode : t.isCode = true)
    (hends : (lexemeBehind ts t).endsClause = false)
    (hfrom : (lexemeBehind ts t).isKeyword "from" = false) :
    loop (bytesOf cs) (clauseRound (bytesOf cs) limit) (offsetBehind ts)
      = loop (bytesOf cs) (clauseRound (bytesOf cs) limit)
        (min limit (offsetBehind (ts ++ [t]))) := by
  have hne : ∀ s, t ≠ .comment s := by
    rintro s rfl
    cases hcode
  have hround := clauseRound_eq h hp hne
  rw [hends, hfrom] at hround
  have hlt := offsetBehind_lt h
  have hlength := offsetBehind_le (h.trans (List.append_cons ts t us))
  refine loop_skip (by omega) (by omega) fun q hq hstop => ?_
  rcases Nat.eq_or_lt_of_le hq with rfl | hlater
  · exact hround
  · exact clauseRound_inside (inWord_of_isCode h hcode hlater (by omega)) (by omega)

/-- **Behind `from`** a string ends the clause, and without one the clause goes on. -/
theorem behindFrom_eq (h : tokens cs = ts ++ (gap ++ us)) (hgap : ∀ t ∈ gap, t.isTrivia = true)
    (hus : ∀ t ∈ us.head?, t.isTrivia = false) :
    behindFrom (bytesOf cs) (offsetBehind ts) = if (us.head?.bind stringBody?).isSome then
        Round.done <$> stringLiteral (bytesOf cs) (offsetBehind (ts ++ gap))
      else .ok (.again (offsetBehind (ts ++ gap))) := by
  have hbehind : tokens cs = (ts ++ gap) ++ us := by rw [h, List.append_assoc]
  have hquote : (peek (bytesOf cs) (offsetBehind (ts ++ gap)) = some '\x22' ∨
      peek (bytesOf cs) (offsetBehind (ts ++ gap)) = some '\x27') ↔
        (us.head?.bind stringBody?).isSome = true := by
    cases us with
    | nil =>
      rw [peek_end hbehind]
      simp
    | cons t us =>
      rw [peek_token hbehind, Option.some.injEq, Option.some.injEq]
      exact isString_sign hbehind
  rw [behindFrom, skipTrivia_eq h hgap hus, ok_bind]
  simp only [hquote]
  rfl

/-- A clause that is cut off inside of a word resumes there. -/
theorem reads_clause_of_isCode (kind : Reference.Kind) {limit : Nat}
    (h : tokens cs = ts ++ t :: us) (hp : offsetBehind ts < min limit (bytesOf cs).length)
    (hcode : t.isCode = true) (hends : (lexemeBehind ts t).endsClause = false)
    (hfrom : (lexemeBehind ts t).isKeyword "from" = false)
    (hon : Reads cs (clause kind (limit - offsetBehind (ts ++ [t]))) (ts ++ [t]) us
      (Outcome.as kind <$> loop (bytesOf cs)
        (clauseRound (bytesOf cs) (min limit (bytesOf cs).length)) (offsetBehind (ts ++ [t])))) :
    Reads cs (clause kind (limit - offsetBehind ts)) ts (t :: us) (Outcome.as kind <$>
      loop (bytesOf cs) (clauseRound (bytesOf cs) (min limit (bytesOf cs).length))
        (offsetBehind ts)) := by
  have hbehind : tokens cs = (ts ++ [t]) ++ us := h.trans (List.append_cons ts t us)
  have hlength := offsetBehind_le hbehind
  have hlimit : offsetBehind ts < limit := by omega
  have hfinds := finds_clause_cons kind hlimit hends us
  rw [hfrom, if_neg Bool.false_ne_true] at hfinds
  rw [loop_clause_of_isCode h hp hcode hends hfrom]
  by_cases hfits : offsetBehind (ts ++ [t]) ≤ min limit (bytesOf cs).length
  · rw [Nat.min_eq_right hfits]
    exact Reads.cons hon hfinds
  · have hmin : min (min limit (bytesOf cs).length) (offsetBehind (ts ++ [t])) = limit := by omega
    have hover : limit - offsetBehind (ts ++ [t]) = 0 := by omega
    rw [hover] at hfinds
    rw [hmin, loop_done (if_neg (by omega))]
    refine ⟨none, limit, ts ++ [t], us, rfl, ⟨hbehind, by omega, fun q hq hstop => ?_⟩, by omega,
      Nat.le_succ _, hfinds.trans (finds_of_step_eq fun u _ => step_clause_of_ends (.inl rfl))⟩
    exact inWord_of_isCode h hcode (by omega) hstop

/-- A string behind `from` is read, and without one the clause is. -/
theorem reads_sought (kind : Reference.Kind) (limit : Nat)
    {round : Nat → Checked (Round (Outcome Span))} (h : tokens cs = ts ++ us)
    (hp : p < offsetBehind ts) (hround : round p = behindFrom (bytesOf cs) (offsetBehind ts))
    (hon : ∀ gap vs, us = gap ++ vs →
      Reads cs (clause kind (limit - offsetBehind (ts ++ gap))) (ts ++ gap) vs
        (Outcome.as kind <$> loop (bytesOf cs) round (offsetBehind (ts ++ gap)))) :
    Reads cs (sought kind (limit - offsetBehind ts)) ts us
      (Outcome.as kind <$> loop (bytesOf cs) round p) := by
  obtain ⟨gap, us, rfl, hgap, hus⟩ := exists_gap us
  refine Reads.append ?_ (finds_sought_gap kind limit hgap ts us)
  have hbehind : tokens cs = (ts ++ gap) ++ us := by rw [h, List.append_assoc]
  rw [behindFrom_eq h hgap hus] at hround
  generalize hn : limit - offsetBehind (ts ++ gap) = n
  cases hbody : us.head?.bind stringBody? with
  | none =>
    rw [hbody, Option.isSome_none, if_neg Bool.false_ne_true] at hround
    have hle := offsetBehind_le h
    have hgo : offsetBehind ts ≤ offsetBehind (ts ++ gap) := by
      rw [offsetBehind_append]
      exact Nat.le_add_right _ _
    rw [loop_again hround (by omega) (by omega)]
    refine Reads.congr (hn ▸ hon gap us rfl) (finds_of_step_eq fun t ht => ?_)
    have hnone : stringBody? t = none := by
      rw [Option.mem_def.1 ht] at hbody
      exact hbody
    show (sought kind n).step _ = (inClause kind n _, none)
    rw [Stage.step, if_neg (not_isTrivia _ (hus t ht)), lexemeBehind, hnone]
  | some string =>
    rw [hbody, Option.isSome_some, if_pos rfl] at hround
    obtain ⟨t, ht, hstring⟩ := Option.bind_eq_some_iff.1 hbody
    obtain ⟨us, rfl⟩ := List.head?_eq_some_iff.1 ht
    obtain ⟨body, closed⟩ := string
    cases closed with
    | true =>
      have hstep : (sought kind n).step (lexemeBehind (ts ++ gap) t)
          = (code, some (refer kind (lexemeBehind (ts ++ gap) t) body)) := by
        rw [Stage.step, if_neg (not_isTrivia _ (hus t ht)), lexemeBehind, hstring]
      have hfinds := finds_of_step_some hstep us
      rw [found_refer] at hfinds
      rw [stringLiteral_closed hbehind hstring] at hround
      rw [loop_done hround]
      exact Reads.behind hbehind hfinds
    | false =>
      have hstep : (sought kind n).step (lexemeBehind (ts ++ gap) t) = (code, none) := by
        rw [Stage.step, if_neg (not_isTrivia _ (hus t ht)), lexemeBehind, hstring]
      rw [stringLiteral_open hbehind hstring] at hround
      rw [loop_done hround]
      exact Reads.behind hbehind (finds_of_step hstep us)

/-- **A clause** that may go on up to a place is read as the machine reads it. -/
theorem reads_clause (kind : Reference.Kind) (limit : Nat) (h : tokens cs = ts ++ us) :
    Reads cs (clause kind (limit - offsetBehind ts)) ts us (Outcome.as kind <$>
      loop (bytesOf cs) (clauseRound (bytesOf cs) (min limit (bytesOf cs).length))
        (offsetBehind ts)) := by
  induction hn : us.length using Nat.strongRecOn generalizing ts us with
  | ind n ih =>
    by_cases hp : offsetBehind ts < min limit (bytesOf cs).length
    case neg =>
      -- the limit or the end of the text is reached
      rw [loop_done (if_neg hp)]
      refine Reads.give_up h fun t ht => step_clause_of_ends (.inl ?_)
      obtain ⟨vs, rfl⟩ := List.head?_eq_some_iff.1 ht
      have hlt := peek_lt (peek_token h)
      omega
    case pos =>
      have hlimit : offsetBehind ts < limit := by omega
      obtain ⟨t, us, rfl⟩ := exists_cons_of_lt h (by omega)
      have hbehind : tokens cs = (ts ++ [t]) ++ us := h.trans (List.append_cons ts t us)
      have hon := ih us.length (by rw [← hn]; exact Nat.lt_succ_self _) hbehind rfl
      have hnext := offsetBehind_lt h
      by_cases hends : (lexemeBehind ts t).endsClause = true
      · have hne : ∀ s, t ≠ .comment s := by
          rintro s rfl
          cases hends
        have hround := clauseRound_eq h hp hne
        rw [if_pos hends] at hround
        rw [loop_done hround]
        refine Reads.give_up h fun u hu => ?_
        obtain rfl := Option.some.inj hu
        exact step_clause_of_ends (.inr hends)
      rw [Bool.not_eq_true] at hends
      have hfinds := finds_clause_cons kind hlimit hends us
      cases t with
      | literal => cases hends
      | comment s =>
        have hround : clauseRound (bytesOf cs) (min limit (bytesOf cs).length) (offsetBehind ts)
            = .ok (.again (offsetBehind (ts ++ [.comment s]))) := by
          rw [clauseRound, if_pos hp, skipComment_comment h, ok_bind]
          rfl
        rw [isKeyword_of_not_word ts (by simp) "from", if_neg Bool.false_ne_true] at hfinds
        rw [loop_again hround (by omega) hnext]
        exact Reads.cons hon hfinds
      | blank c | mark c =>
        exact reads_clause_of_isCode kind h hp rfl hends (isKeyword_of_not_word ts (by simp) "from")
          hon
      | word w =>
        cases hfrom : (lexemeBehind ts (.word w)).isKeyword "from" with
        | false => exact reads_clause_of_isCode kind h hp rfl hends hfrom hon
        | true =>
          rw [hfrom, if_pos rfl] at hfinds
          have hround := clauseRound_eq h hp (by simp)
          obtain rfl := Token.word.inj (Lexeme.isKeyword_iff.1 hfrom).2
          rw [hends, hfrom, if_neg Bool.false_ne_true, if_pos rfl, ← offsetBehind_keyword] at hround
          refine Reads.cons (reads_sought kind limit hbehind hnext hround ?_) hfinds
          rintro gap vs rfl
          refine ih vs.length ?_ (hbehind.trans (List.append_assoc _ _ _).symm) rfl
          rw [← hn, List.length_cons, List.length_append]
          omega

theorem reads_fromClause (kind : Reference.Kind) (h : tokens cs = ts ++ us) :
    Reads cs (clause kind clauseLimit) ts us
      (Outcome.as kind <$> fromClause (bytesOf cs) (offsetBehind ts)) := by
  have hreads := reads_clause kind (offsetBehind ts + clauseLimit) h
  rw [Nat.add_sub_cancel_left] at hreads
  exact hreads

/-- **What stands behind `import`.** -/
theorem reads_imported (h : tokens cs = ts ++ us) :
    Reads cs imported ts us (importClause (bytesOf cs) (offsetBehind ts)) := by
  obtain ⟨gap, us, rfl, hgap, hus⟩ := exists_gap us
  have hgapStep (l : Lexeme) (hl : l.isTrivia = true) : imported.step l = (imported, none) := by
    rw [Stage.step, if_pos hl]
  have hbehind : tokens cs = (ts ++ gap) ++ us := by rw [h, List.append_assoc]
  refine Reads.append ?_ (finds_gap hgapStep hgap ts us)
  rw [importClause, skipTrivia_eq h hgap hus, ok_bind]
  cases us with
  | nil =>
    rw [peek_end hbehind]
    exact Reads.here hbehind rfl
  | cons t us =>
    have htrivia := not_isTrivia (ts ++ gap) (hus t rfl)
    have hparen := sign_eq_iff hbehind (c := '(') (by decide) (by decide) (by decide) (by decide)
    rw [peek_token hbehind]
    by_cases hcall : t = .mark '('
    · subst hcall
      have hstep : imported.step (lexemeBehind (ts ++ gap) (.mark '('))
          = (argument .dynamic, none) := rfl
      have hafter : tokens cs = (ts ++ gap ++ [.mark '(']) ++ us :=
        hbehind.trans (List.append_cons _ _ _)
      have hargument := @callArgument_eq cs (ts ++ gap) _ [] hbehind (by simp) hus
      rw [List.append_nil] at hargument
      have hreads := Reads.cons (reads_argument .dynamic hafter) (finds_of_step hstep us)
      show Reads _ _ _ _ (_ <$> _)
      rw [hargument]
      exact hreads
    have hsign := isString_sign hbehind
    show Reads _ _ _ _ (if sign t = '(' then _ else _)
    rw [if_neg (mt hparen.1 hcall)]
    cases hbody : stringBody? t with
    | none =>
      rw [hbody] at hsign
      rw [if_neg (mt hsign.1 Bool.false_ne_true)]
      refine Reads.congr (reads_fromClause .importFrom hbehind) (finds_of_step_eq fun u hu => ?_)
      obtain rfl := Option.some.inj hu
      show _ = (inClause .importFrom clauseLimit _, none)
      rw [Stage.step, if_neg htrivia, lexemeBehind, if_neg hcall, hbody]
    | some string =>
      rw [hbody] at hsign
      rw [if_pos (hsign.2 rfl)]
      obtain ⟨body, closed⟩ := string
      cases closed with
      | true =>
        have hstep : imported.step (lexemeBehind (ts ++ gap) t)
            = (code, some (refer .sideEffect (lexemeBehind (ts ++ gap) t) body)) := by
          rw [Stage.step, if_neg htrivia, lexemeBehind, if_neg hcall, hbody]
        have hfinds := finds_of_step_some hstep us
        rw [found_refer] at hfinds
        rw [stringLiteral_closed hbehind hbody]
        exact Reads.behind hbehind hfinds
      | false =>
        have hstep : imported.step (lexemeBehind (ts ++ gap) t) = (code, none) := by
          rw [Stage.step, if_neg htrivia, lexemeBehind, if_neg hcall, hbody]
        rw [stringLiteral_open hbehind hbody]
        exact Reads.behind hbehind (finds_of_step hstep us)

end

end ModuleLookup.Cursor
