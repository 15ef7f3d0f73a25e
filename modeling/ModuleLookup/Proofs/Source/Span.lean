import Mathlib.Data.List.TakeWhile
import ModuleLookup.Proofs.Source.Origin
import ModuleLookup.Proofs.Source.RequireCall
import ModuleLookup.Proofs.Text.Bytes

/-!
# Spans of references

The references of a text come in the order in which they stand, and the text of each, with its
quotes, ends before that of the next one begins. The places of a reference are cuts between two
characters of the text, between them stands what was written, and directly around stand the
quotes.

* `Escapes` — a text in which the next character is escaped; `Token.Inside.escapes_of_ends` —
  inside a literal nothing that would end it stands without its backslash.
* `Stage.pairwise_run` — a run finds references from left to right.
* `Reference.IsSpan` — a reference in terms of the bytes of its text;
  `isSpan_of_mem_references`.
* `isValid_of_mem_lexemes` — the places of all tokens.
-/

namespace ModuleLookup

/-! ## Escaped characters -/

/-- The backslashes at the end of a text. -/
def backslashes (cs : List Char) : Nat :=
  (cs.reverse.takeWhile (· == '\\')).length

/-- A text ends with a backslash that takes the next character with it: one that is not taken
itself. -/
def Escapes (cs : List Char) : Prop :=
  backslashes cs % 2 = 1

instance (cs : List Char) : Decidable (Escapes cs) :=
  inferInstanceAs (Decidable (_ = _))

/-- Only backslashes up to the end are counted. -/
theorem backslashes_cons (c : Char) (cs : List Char) :
    backslashes (c :: cs) = backslashes cs + if (c :: cs).all (· == '\\') then 1 else 0 := by
  rw [backslashes, List.reverse_cons, List.all_cons]
  by_cases hall : cs.all (· == '\\') = true
  · have hpos : ∀ d ∈ cs.reverse, (d == '\\') = true := fun d hd =>
      List.all_eq_true.1 hall d (List.mem_reverse.1 hd)
    rw [List.takeWhile_append_of_pos hpos, List.length_append, backslashes,
      List.takeWhile_eq_self_iff.2 hpos, hall, Bool.and_true]
    cases hc : c == '\\' <;> simp [hc]
  · have hne : (cs.reverse.takeWhile (· == '\\')).length ≠ cs.reverse.length := by
      intro heq
      have hself := (List.takeWhile_prefix (· == '\\')).eq_of_length heq
      refine hall (List.all_eq_true.2 fun d hd => ?_)
      exact List.takeWhile_eq_self_iff.1 hself d (List.mem_reverse.2 hd)
    rw [List.takeWhile_append, if_neg hne, Bool.eq_false_iff.2 hall, Bool.and_false, backslashes]
    rfl

theorem escapes_cons_iff {c : Char} (h : c ≠ '\\') (cs : List Char) :
    Escapes (c :: cs) ↔ Escapes cs := by
  rw [Escapes, Escapes, backslashes_cons, List.all_cons, beq_eq_false_iff_ne.2 h,
    Bool.false_and]
  rfl

/-- A backslash with the character that it takes changes nothing behind it. -/
theorem escapes_cons_cons_iff (c : Char) (cs : List Char) :
    Escapes ('\\' :: c :: cs) ↔ Escapes cs := by
  have hall : ('\\' :: c :: cs).all (· == '\\') = (c :: cs).all (· == '\\') := rfl
  rw [Escapes, Escapes, backslashes_cons, backslashes_cons, hall]
  split <;> omega

/-- **Inside a literal**, its quote and, unless in a template, a newline stand only behind a
backslash that takes them. -/
theorem Token.Inside.escapes_of_ends {q : Char} {body : List Char} (h : Inside q body)
    (hq : q ≠ '\\') {front rest : List Char} {c : Char} (hbody : body = front ++ c :: rest)
    (hc : c = q ∨ c = '\n' ∧ q ≠ '\x60') : Escapes front := by
  induction h generalizing front with
  | nil => exact absurd hbody (by simp)
  | @char d body hquote hescape hline _ ih =>
    cases front with
    | nil =>
      obtain ⟨rfl, -⟩ := List.cons.inj hbody
      rcases hc with hc | ⟨hc, htemplate⟩
      · exact absurd hc hquote
      · exact absurd (hline hc) htemplate
    | cons e front =>
      obtain ⟨rfl, htail⟩ := List.cons.inj hbody
      exact (escapes_cons_iff hescape front).2 (ih htail)
  | @escape d body _ ih =>
    rcases front with _ | ⟨e, _ | ⟨f, front⟩⟩
    · obtain ⟨rfl, -⟩ := List.cons.inj hbody
      rcases hc with hc | ⟨hc, -⟩
      · exact absurd hc.symm hq
      · exact absurd hc (by decide)
    · obtain ⟨rfl, -⟩ := List.cons.inj hbody
      decide
    · obtain ⟨rfl, hescaped⟩ := List.cons.inj hbody
      obtain ⟨-, htail⟩ := List.cons.inj hescaped
      exact (escapes_cons_cons_iff f front).2 (ih htail)

/-- Behind the inside of a literal nothing is escaped, so its quote ends it. -/
theorem Token.Inside.not_escapes {q : Char} {body : List Char} (h : Inside q body) :
    ¬Escapes body := by
  induction h with
  | nil => decide
  | char _ hescape _ _ ih => rwa [escapes_cons_iff hescape]
  | escape c _ ih => rwa [escapes_cons_cons_iff]

/-! ## From left to right -/

namespace Stage

variable {s : Stage} {p : Place} {t : Token} {r : Reference}

/-- Behind a reference that is completed the machine is in ordinary code. -/
theorem step_of_some {l : Lexeme} : (s.step l).2 = some r → (s.step l).1 = code := by
  have hnone {next : Stage} (h : (none : Option Reference) = some r) : next = code := by
    cases h
  cases s with
  | code | clause => exact hnone
  | called | argument =>
    rw [step]
    split
    · exact hnone
    · split <;> exact hnone
  | closing found =>
    rw [step]
    split
    · exact hnone
    · split
      · exact fun _ => rfl
      · exact hnone
  | imported =>
    rw [step]
    split
    · exact hnone
    · split
      · exact hnone
      · split
        · exact fun _ => rfl
        · exact fun _ => rfl
        · exact hnone
  | sought kind n =>
    rw [step]
    split
    · exact hnone
    · split
      · exact fun _ => rfl
      · exact fun _ => rfl
      · exact hnone

/-- A literal ends behind the text of its reference and one more quote. -/
theorem stop_refer_lt {kind : Reference.Kind} {body : List Char}
    (h : stringBody? t = some (body, true)) : (refer kind ⟨t, p⟩ body).stop < (p.after t).offset := by
  obtain ⟨q, -, rfl⟩ := stringBody?_eq_some_iff.1 h
  have hq := Char.utf8Size_pos q
  simp only [refer, Place.after, Token.size, Token.text, byteLength_cons, byteLength_append,
    byteLength_nil]
  omega

/-- **A run finds references from left to right**: each with its quotes ends before the next one
begins, if this also holds of a reference that waits for the end of its call. -/
theorem pairwise_run {ts : List Token} (hs : ∀ r, s = closing r → r.stop < p.offset) :
    (s.run (lexemes p ts)).Pairwise fun r next => r.stop + 1 < next.start := by
  induction ts generalizing s p with
  | nil => exact List.Pairwise.nil
  | cons t ts ih =>
    have hoffset : p.offset ≤ (p.after t).offset := Nat.le_add_right _ _
    -- what waits or is completed behind the token ends before it or in it
    have hstop {r : Reference} (h : (s.step ⟨t, p⟩).2 = some r ∨ (s.step ⟨t, p⟩).1 = closing r) :
        r.stop < (p.after t).offset := by
      rcases exists_refer_of_step h with h | ⟨kind, body, hbody, rfl⟩
      · exact Nat.lt_of_lt_of_le (hs r h) hoffset
      · exact stop_refer_lt hbody
    rw [lexemes, run, List.pairwise_append]
    refine ⟨?_, ih fun r hr => hstop (.inr hr), fun r hr next hnext => ?_⟩
    · cases (s.step ⟨t, p⟩).2 with
      | none => exact List.Pairwise.nil
      | some r => exact List.pairwise_singleton _ r
    · rw [Option.mem_toList] at hr
      rw [step_of_some hr] at hnext
      rcases start_of_mem_run hnext with hcode | ⟨l, hl, -, hstart⟩
      · cases hcode
      · have hplace := (offset_le_of_mem_lexemes hl).1
        have hr := hstop (.inl hr)
        omega

end Stage

/-! ## Bytes of a reference -/

/-- The places of a reference in its text, in bytes: cuts between two characters, with what was
written between them and a quote on either side. -/
structure Reference.IsSpan (source : String) (quote : Char) (r : Reference) : Prop where
  /-- the text does not begin before the source does, nor before its quote -/
  start_pos : 0 < r.start
  /-- it does not end before it begins -/
  start_le_stop : r.start ≤ r.stop
  /-- it ends inside the source, before its quote -/
  stop_lt : r.stop < (encode source).length
  /-- it begins between two characters -/
  isValid_start : String.Pos.Raw.IsValid source ⟨r.start⟩
  /-- it ends between two characters -/
  isValid_stop : String.Pos.Raw.IsValid source ⟨r.stop⟩
  /-- it is what was written there -/
  raw : bytesBetween (encode source) r.start r.stop = encode r.raw
  /-- a quote opens it -/
  opening : (encode source)[r.start - 1]? = some quote.toNat.toUInt8
  /-- the same quote closes it -/
  closing : (encode source)[r.stop]? = some quote.toNat.toUInt8
  /-- in between that quote and newlines are escaped -/
  escaped : ∀ front c rest, r.raw.toList = front ++ c :: rest → c = quote ∨ c = '\n' →
    Escapes front
  /-- the closing quote is not -/
  not_escaped : ¬Escapes r.raw.toList
  /-- the line is told by the newlines before the opening quote -/
  line : r.line = lineBehind (((encode source).take (r.start - 1)).count 0x0a)

/-- A byte below 128 is found where its character stands. -/
theorem getElem?_encode {source : String} {cs ds : List Char} {c : Char}
    (h : source.toList = cs ++ c :: ds) (hc : c.toNat < 128) :
    (encode source)[byteLength cs]? = some c.toNat.toUInt8 := by
  rw [encode_eq_bytesOf, h, bytesOf_append, bytesOf_cons, bytesOf_singleton hc,
    List.getElem?_append_right (by simp), length_bytesOf, Nat.sub_self]
  rfl

/-- What stands between two quotes in a text is a span. -/
theorem isSpan_of_toList_eq {source : String} {front body behind : List Char} {quote : Char}
    (hquote : quote = '\x22' ∨ quote = '\x27') (hbody : Token.Inside quote body)
    (h : source.toList = front ++ quote :: (body ++ quote :: behind)) (kind : Reference.Kind) :
    Reference.IsSpan source quote ⟨String.ofList body, kind, lineBehind (front.count '\n'),
      byteLength front + 1, byteLength front + 1 + byteLength body⟩ := by
  have hsize : quote.utf8Size = 1 := by rcases hquote with rfl | rfl <;> decide
  have hlow : quote.toNat < 128 := by rcases hquote with rfl | rfl <;> decide
  have hbackslash : quote ≠ '\\' := by rcases hquote with rfl | rfl <;> decide
  have htemplate : quote ≠ '\x60' := by rcases hquote with rfl | rfl <;> decide
  have hopen : source.toList = (front ++ [quote]) ++ (body ++ quote :: behind) := by
    rw [h, List.append_assoc]
    rfl
  have hclose : source.toList = (front ++ [quote] ++ body) ++ quote :: behind := by
    rw [hopen, List.append_assoc, List.append_assoc, List.append_assoc]
  have hstart : byteLength (front ++ [quote]) = byteLength front + 1 := by
    rw [byteLength_append, byteLength_cons, byteLength_nil, hsize]
  have hstop : byteLength (front ++ [quote] ++ body) = byteLength front + 1 + byteLength body := by
    rw [byteLength_append, hstart]
  constructor
  · exact Nat.succ_pos _
  · exact Nat.le_add_right _ _
  · show byteLength front + 1 + byteLength body < (encode source).length
    rw [encode_eq_bytesOf, length_bytesOf, hclose, byteLength_append, hstop, byteLength_cons,
      hsize]
    omega
  · show String.Pos.Raw.IsValid source ⟨byteLength front + 1⟩
    rw [← hstart]
    exact isValid_of_toList_eq hopen
  · show String.Pos.Raw.IsValid source ⟨byteLength front + 1 + byteLength body⟩
    rw [← hstop]
    exact isValid_of_toList_eq hclose
  · have hbetween := bytesBetween_of_toList_eq hclose
    rw [hstart] at hbetween
    rw [encode_eq_bytesOf (String.ofList body), String.toList_ofList]
    exact hbetween
  · exact getElem?_encode h hlow
  · have hget := getElem?_encode hclose hlow
    rwa [hstop] at hget
  · intro u c v hcut hc
    rw [String.toList_ofList] at hcut
    exact hbody.escapes_of_ends hbackslash hcut (hc.imp_right fun hc => ⟨hc, htemplate⟩)
  · rw [String.toList_ofList]
    exact hbody.not_escapes
  · show _ = lineBehind (((encode source).take (byteLength front)).count 0x0a)
    rw [encode_eq_bytesOf, h, bytesOf_append, List.take_left' (length_bytesOf front)]
    exact congrArg lineBehind (count_bytesOf (c := '\n') (by decide) front).symm

/-- **Every reference is a span** of its text, in single or double quotes. -/
theorem isSpan_of_mem_references {source : String} {r : Reference} (h : r ∈ references source) :
    ∃ quote, (quote = '\x22' ∨ quote = '\x27') ∧ r.IsSpan source quote := by
  rcases Stage.exists_refer_of_mem_run h with hcode | ⟨l, hl, kind, body, hbody, rfl⟩
  · cases hcode
  obtain ⟨before, after, hsplit⟩ := List.append_of_mem hl
  obtain ⟨htokens, hplace⟩ := place_of_lexemes_eq hsplit
  obtain ⟨quote, hne, hliteral⟩ := Stage.stringBody?_eq_some_iff.1 hbody
  rw [hliteral] at htokens
  obtain ⟨hoffset, hline⟩ := afterAll_eq Place.start (before.map Lexeme.token)
  rw [← hplace] at hoffset hline
  have htext := tokens_text source.toList
  rw [htokens, List.flatMap_append, List.flatMap_cons, Token.text, List.append_assoc] at htext
  have hinside : isQuote quote = true ∧ Token.Inside quote body := by
    cases cut_of_tokens_eq htokens with
    | closed hq hbody => exact ⟨hq, hbody⟩
  have hquote : quote = '\x22' ∨ quote = '\x27' := by
    have hq := hinside.1
    simp only [isQuote, Bool.or_eq_true, beq_iff_eq] at hq
    exact hq.resolve_right hne
  refine ⟨quote, hquote, ?_⟩
  rw [Stage.refer, hoffset, hline, show Place.start.offset = 0 from rfl, Nat.zero_add]
  exact isSpan_of_toList_eq hquote hinside.2 htext.symm kind

end ModuleLookup
