import ModuleLookup.Proofs.Cursor.Clause
import ModuleLookup.Proofs.Source.Span

/-!
# The whole text under the cursor

One reference after the other is read in place, and their texts and lines are found in one more
pass over the text. This never looks outside of the text and never cuts a character, always ends,
and has the references of the text for its result.

* `nextFound_eq` — the next reference; `collect_eq` — all of them.
* `slice_eq` and `countTo_eq` — the text and the line of a reference; `describe_eq` — all of them.
* `scan_eq` — a whole text; `references_spans` — where its references are.
-/

namespace ModuleLookup

namespace Cursor

open Stage (code called imported clause enter)

section

variable {cs : List Char} {ts us : List Token} {t : Token} {bytes : List UInt8} {p : Nat}

/-! ## One reference after the other -/

theorem nextRound_eq_codeRound {c : Char} (hpeek : peek bytes p = some c)
    (hcomment : skipComment bytes p = .ok none) : nextRound bytes p = codeRound bytes c p := by
  rw [nextRound, hpeek]
  show (do let next ← skipComment bytes p; _) = _
  rw [hcomment, ok_bind]

/-- Inside of a word ordinary code goes on. -/
theorem nextRound_inside (h : InWord bytes p) : nextRound bytes p = .ok (.again (p + 1)) := by
  have hkeyword := h.keyword
  obtain ⟨-, -, c, hpeek, hc⟩ := h
  have hquote : ¬isQuote c = true := by
    intro hq
    rw [isWordChar_eq_false_of_isQuote hq] at hc
    cases hc
  rw [nextRound_eq_codeRound hpeek (skipComment_of_isWordChar hpeek hc), codeRound, if_neg hquote,
    hkeyword, ok_bind, if_neg Bool.false_ne_true, hkeyword, ok_bind, if_neg Bool.false_ne_true,
    hkeyword, ok_bind]
  rfl

/-- A cursor inside of a word leaves it. -/
theorem Resumes.nextFound_eq (h : Resumes cs ts us p) :
    nextFound (bytesOf cs) p = nextFound (bytesOf cs) (offsetBehind ts) :=
  loop_skip h.le (offsetBehind_le h.tokens_eq) fun q hp hq => nextRound_inside (h.inWord q hp hq)

/-- **Between two tokens** a form is read where the machine enters it. -/
theorem nextRound_of_enter (h : tokens cs = ts ++ t :: us)
    (henter : enter (lexemeBehind ts t) ≠ code) :
    ∃ reading, nextRound (bytesOf cs) (offsetBehind ts) = Round.ofOutcome <$> reading ∧
      Reads cs (enter (lexemeBehind ts t)) (ts ++ [t]) us reading := by
  have hbehind : tokens cs = (ts ++ [t]) ++ us := h.trans (List.append_cons ts t us)
  obtain ⟨w, rfl⟩ : ∃ w, t = .word w := by
    by_contra hword
    exact henter (Stage.enter_of_not_word fun w hw => hword ⟨w, hw⟩)
  have hquote : ¬isQuote (sign (.word w)) = true := by
    rw [isQuote_sign h]
    simp
  have hplace {keyword : String} (hk : (lexemeBehind ts (.word w)).isKeyword keyword = true) :
      offsetBehind ts + keyword.utf8ByteSize = offsetBehind (ts ++ [.word w]) := by
    rw [← offsetBehind_keyword, Token.word.inj (Lexeme.isKeyword_iff.1 hk).2]
  rw [nextRound_eq_codeRound (peek_token h) (skipComment_eq_none h (by simp)), codeRound,
    if_neg hquote, startsKeyword_eq (by decide) h, ok_bind]
  cases hrequire : (lexemeBehind ts (.word w)).isKeyword "require" with
  | true =>
    rw [if_pos rfl, hplace hrequire, Stage.enter_of_require hrequire]
    exact ⟨_, rfl, reads_called hbehind⟩
  | false =>
    rw [if_neg Bool.false_ne_true, startsKeyword_eq (by decide) h, ok_bind]
    cases himport : (lexemeBehind ts (.word w)).isKeyword "import" with
    | true =>
      rw [if_pos rfl, hplace himport, Stage.enter_of_import himport]
      exact ⟨_, rfl, reads_imported hbehind⟩
    | false =>
      rw [if_neg Bool.false_ne_true, startsKeyword_eq (by decide) h, ok_bind]
      cases hexport : (lexemeBehind ts (.word w)).isKeyword "export" with
      | true =>
        rw [if_pos rfl, hplace hexport, Stage.enter_of_export hexport]
        exact ⟨_, rfl, reads_fromClause .exportFrom hbehind⟩
      | false =>
        refine absurd ?_ henter
        rw [enter, hrequire, himport, hexport]
        rfl

theorem isKeyword_of_enter {l : Lexeme} (h : enter l = code) :
    l.isKeyword "require" = false ∧ l.isKeyword "import" = false ∧ l.isKeyword "export" = false := by
  rw [enter] at h
  split_ifs at h with hrequire himport hexport
  exact ⟨Bool.eq_false_iff.2 hrequire, Bool.eq_false_iff.2 himport, Bool.eq_false_iff.2 hexport⟩

/-- Everything else is stepped over. -/
theorem nextFound_cons (h : tokens cs = ts ++ t :: us) (henter : enter (lexemeBehind ts t) = code) :
    nextFound (bytesOf cs) (offsetBehind ts)
      = nextFound (bytesOf cs) (offsetBehind (ts ++ [t])) := by
  have hpeek := peek_token h
  have hnext := offsetBehind_lt h
  have hlength := offsetBehind_le (h.trans (List.append_cons ts t us))
  cases t with
  | comment s =>
    have hround : nextRound (bytesOf cs) (offsetBehind ts)
        = .ok (.again (offsetBehind (ts ++ [.comment s]))) := by
      rw [nextRound, hpeek]
      show (do let next ← skipComment _ _; _) = _
      rw [skipComment_comment h, ok_bind]
      rfl
    exact loop_again hround (by omega) hnext
  | literal q body closed =>
    have hquote : isQuote (sign (.literal q body closed)) = true :=
      (isQuote_sign h).2 ⟨q, body, closed, rfl⟩
    have hround : nextRound (bytesOf cs) (offsetBehind ts)
        = .ok (.again (offsetBehind (ts ++ [.literal q body closed]))) := by
      rw [nextRound_eq_codeRound hpeek (skipComment_eq_none h (by simp)), codeRound, if_pos hquote,
        skipString_literal h, ok_bind]
      rfl
    exact loop_again hround (by omega) hnext
  | word | blank | mark =>
    have hcomment := skipComment_eq_none h (by simp)
    have hquote : ¬isQuote (sign _) = true := mt (isQuote_sign h).1 (by simp)
    obtain ⟨hrequire, himport, hexport⟩ := isKeyword_of_enter henter
    refine loop_skip (by omega) hlength fun q hq hstop => ?_
    rcases Nat.eq_or_lt_of_le hq with rfl | hlater
    · rw [nextRound_eq_codeRound hpeek hcomment, codeRound, if_neg hquote,
        startsKeyword_eq (by decide) h, ok_bind, hrequire, if_neg Bool.false_ne_true,
        startsKeyword_eq (by decide) h, ok_bind, himport, if_neg Bool.false_ne_true,
        startsKeyword_eq (by decide) h, ok_bind, hexport]
      rfl
    · exact nextRound_inside (inWord_of_isCode h rfl hlater hstop)

/-- **The next reference** is what the machine finds first. -/
theorem nextFound_eq (h : tokens cs = ts ++ us) :
    (finds code ts us = [] ∧ ∃ next, nextFound (bytesOf cs) (offsetBehind ts) = .ok (none, next)) ∨
    ∃ found next ts' us', nextFound (bytesOf cs) (offsetBehind ts) = .ok (some found, next) ∧
      finds code ts us = found :: finds code ts' us' ∧ Resumes cs ts' us' next ∧
      offsetBehind ts < next ∧ us'.length < us.length := by
  induction hn : us.length using Nat.strongRecOn generalizing ts us with
  | ind n ih =>
    cases us with
    | nil =>
      refine .inl ⟨rfl, offsetBehind ts, loop_done ?_⟩
      rw [nextRound, peek_end h]
    | cons t us =>
      have hbehind : tokens cs = (ts ++ [t]) ++ us := h.trans (List.append_cons ts t us)
      have hnext := offsetBehind_lt h
      have hfinds : finds code ts (t :: us) = finds (enter (lexemeBehind ts t)) (ts ++ [t]) us :=
        finds_of_step rfl us
      rw [List.length_cons] at hn
      by_cases henter : enter (lexemeBehind ts t) = code
      · rw [nextFound_cons h henter, hfinds, henter]
        rcases ih us.length (by omega) hbehind rfl with hnone | hsome
        · exact .inl hnone
        · obtain ⟨found, next, ts', us', hfound, hrest, hresumes, hlt, hlength⟩ := hsome
          exact .inr ⟨found, next, ts', us', hfound, hrest, hresumes, by omega, by omega⟩
      · obtain ⟨reading, hround, hreads⟩ := nextRound_of_enter h henter
        obtain ⟨found, next, ts', us', rfl, hresumes, hle, hlength, hrest⟩ := hreads
        rw [hfinds, hrest]
        cases found with
        | some found =>
          exact .inr ⟨found, next, ts', us', loop_done hround, rfl, hresumes, by omega, by omega⟩
        | none =>
          have hgo : nextFound (bytesOf cs) (offsetBehind ts)
              = nextFound (bytesOf cs) (offsetBehind ts') := by
            rw [← hresumes.nextFound_eq]
            exact loop_again hround (peek_lt (peek_token h)) (by omega)
          have hplace := hresumes.le
          rw [hgo, Option.toList_none, List.nil_append]
          rcases ih us'.length (by omega) hresumes.tokens_eq rfl with hnone | hsome
          · exact .inl hnone
          · obtain ⟨found, next', ts'', us'', hfound, hrest, hresumes', hlt, hlength'⟩ := hsome
            exact .inr ⟨found, next', ts'', us'', hfound, hrest, hresumes', by omega, by omega⟩

/-- **All references** from a place on are what the machine finds there. -/
theorem collect_eq (h : Resumes cs ts us p) : collect (bytesOf cs) p = .ok (finds code ts us) := by
  induction hn : us.length using Nat.strongRecOn generalizing ts us p with
  | ind n ih =>
    have hle := h.le
    rw [collect, h.nextFound_eq]
    rcases nextFound_eq h.tokens_eq with ⟨hnone, next, hfound⟩ | hsome
    · rw [hfound, hnone]
    · obtain ⟨found, next, ts', us', hfound, hrest, hresumes, hlt, hlength⟩ := hsome
      have hp : p < (bytesOf cs).length ∧ p < next := by
        obtain ⟨t, vs, rfl⟩ := List.exists_cons_of_length_pos (Nat.zero_lt_of_lt hlength)
        have hlt := peek_lt (peek_token h.tokens_eq)
        omega
      rw [hfound, hrest]
      refine (if_pos hp).trans ?_
      rw [ih us'.length (by omega) hresumes rfl]
      rfl

end

/-! ## Texts and lines -/

section

variable {source : String} {bytes : List UInt8} {counter : Counter}

/-- A span is a piece of the text, and is what was written there. -/
theorem slice_eq {r : Reference} {quote : Char} (h : r.IsSpan source quote) :
    slice source ⟨r.start, r.stop⟩ = .ok r.raw := by
  rw [slice, dif_pos ⟨h.start_le_stop, h.isValid_start, h.isValid_stop⟩]
  refine congrArg Except.ok (encode_injective ?_)
  rw [← h.raw, bytesBetween, encode_eq_data, encode_eq_data, List.drop_take,
    String.toByteArray_extract, ByteArray.data_extract, Array.toList_extract,
    List.extract_eq_take_drop]

/-- A counter that has counted the newlines before it. -/
def Counter.Exact (bytes : List UInt8) (counter : Counter) : Prop :=
  counter.line = lineBehind ((bytes.take counter.offset).count 0x0a)

/-- **Counting on** is as good as counting from the start. -/
theorem countTo_eq (h : counter.Exact bytes) {place : Nat} (hplace : counter.offset ≤ place)
    (hlength : place ≤ bytes.length) :
    counter.countTo bytes place = .ok ⟨place, lineBehind ((bytes.take place).count 0x0a)⟩ := by
  have hstop : min place bytes.length = place := Nat.min_eq_left hlength
  rw [Counter.countTo, hstop]
  rcases Nat.eq_or_lt_of_le hplace with heq | hlt
  · subst heq
    rw [Counter.Exact] at h
    rw [← h]
    exact if_neg (Nat.lt_irrefl _)
  · have hsplit : (bytes.take place).count 0x0a = (bytes.take counter.offset).count 0x0a
        + ((bytes.take place).drop counter.offset).count 0x0a := by
      rw [← List.count_append, ← Nat.min_eq_left hplace, ← List.take_take, Nat.min_eq_left hplace,
        List.take_append_drop]
    rw [if_pos hlt, Counter.bytesUpTo, if_pos ⟨hplace, hlength⟩, ok_bind, h, hsplit, lineBehind_add]
    rfl

/-- **Texts and lines** are found in one pass over references that come in order. -/
theorem describe_eq {rs : List Reference} (hcounter : counter.Exact (encode source))
    (hspans : ∀ r ∈ rs, ∃ quote, r.IsSpan source quote)
    (horder : rs.Pairwise fun r next => r.stop + 1 < next.start)
    (hahead : ∀ r ∈ rs, counter.offset ≤ r.start - 1) :
    describe source counter (rs.map Reference.found) = .ok rs := by
  induction rs generalizing counter with
  | nil => rfl
  | cons r rs ih =>
    obtain ⟨quote, hspan⟩ := hspans r List.mem_cons_self
    obtain ⟨hlater, horder⟩ := List.pairwise_cons.1 horder
    have hstart := hspan.start_le_stop
    have hstop := hspan.stop_lt
    have hcount := countTo_eq hcounter (hahead r List.mem_cons_self) (by omega)
    rw [← hspan.line] at hcount
    have hexact : Counter.Exact (encode source) ⟨r.start - 1, r.line⟩ := hspan.line
    have hrest := ih hexact (fun next hnext => hspans next (List.mem_cons_of_mem r hnext)) horder
      fun next hnext => by
        have hbetween := hlater next hnext
        show r.start - 1 ≤ next.start - 1
        omega
    rw [List.map_cons, describe, Reference.found, slice_eq hspan, ok_bind, hcount, ok_bind, hrest]
    rfl

end

/-- **Reading in place** does not fail on any text, and finds its references. -/
theorem scan_eq (source : String) : scan source = .ok (references source) := by
  have hfinds : finds code [] (tokens source.toList)
      = (references source).map Reference.found := rfl
  have htokens : tokens source.toList = [] ++ tokens source.toList := rfl
  have hcollect := collect_eq (Resumes.refl htokens)
  rw [hfinds, ← encode_eq_bytesOf] at hcollect
  rw [scan, show (0 : Nat) = offsetBehind [] from rfl, hcollect, ok_bind]
  refine describe_eq rfl (fun r hr => ?_) ?_ fun r hr => Nat.zero_le _
  · obtain ⟨quote, -, hspan⟩ := isSpan_of_mem_references hr
    exact ⟨quote, hspan⟩
  · exact Stage.pairwise_run fun r hr => by cases hr

end Cursor

end ModuleLookup
