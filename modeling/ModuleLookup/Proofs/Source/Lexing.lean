import ModuleLookup.Source.Token

/-!
# The rules of lexing

Which token is cut off at a place in a text is a matter of a few rules, one for each way in
which a token can end. They are stated without the functions that find the end, and say the
same: a text is written from its tokens in exactly one way that keeps the rules.

* `Token.Inside` — the inside of a literal; `Token.Cut` — the rules, a token in front of what
  is left.
* `Token.cut_first` and `Token.first_eq_of_cut` — the first token of a text keeps the rules,
  and is the only one that does.
* `Lexed` — a text and its tokens by the rules; `tokens_eq_iff_lexed`.
* `Lexed.append` — texts one after the other, cut between two tokens.
-/

namespace ModuleLookup

/-! ## The rules -/

/-- The inside of a literal: a backslash takes the next character with it, and neither the
quote nor, unless in a template, a newline stands alone. -/
inductive Token.Inside (q : Char) : List Char → Prop where
  /-- nothing -/
  | nil : Inside q []
  /-- a character that ends nothing -/
  | char {c : Char} {body : List Char} (hq : c ≠ q) (hescape : c ≠ '\\')
      (hline : c = '\n' → q = '\x60') (h : Inside q body) : Inside q (c :: body)
  /-- an escaped character -/
  | escape (c : Char) {body : List Char} (h : Inside q body) : Inside q ('\\' :: c :: body)

/-- A token is cut off in front of what is left. -/
inductive Token.Cut : Token → List Char → Prop where
  /-- a line comment goes on to the end of the line -/
  | line {body rest : List Char} (hbody : '\n' ∉ body) (hrest : ∀ c ∈ rest.head?, c = '\n') :
      Cut (.comment ('/' :: '/' :: body)) rest
  /-- a block comment ends at the first end mark -/
  | block {body rest : List Char} (hbody : ¬['*', '/'] <:+: body) :
      Cut (.comment ('/' :: '*' :: (body ++ ['*', '/']))) rest
  /-- a block comment without an end mark takes everything -/
  | openBlock {body : List Char} (hbody : ¬['*', '/'] <:+: body) :
      Cut (.comment ('/' :: '*' :: body)) []
  /-- a literal ends at its quote -/
  | closed {q : Char} {body rest : List Char} (hq : isQuote q = true)
      (hbody : Inside q body) : Cut (.literal q body true) rest
  /-- a literal without its quote ends with the line, or with the text -/
  | unclosed {q : Char} {body rest : List Char} (hq : isQuote q = true)
      (hbody : Inside q body) (hrest : ∀ c ∈ rest.head?, c = '\n' ∧ q ≠ '\x60') :
      Cut (.literal q body false) rest
  /-- a literal may end with a backslash that has nothing to escape -/
  | unescaped {q : Char} {body : List Char} (hq : isQuote q = true)
      (hbody : Inside q body) : Cut (.literal q (body ++ ['\\']) false) []
  /-- a word goes on as long as there are characters of a word -/
  | word {w rest : List Char} (hne : w ≠ []) (hw : ∀ c ∈ w, isWordChar c = true)
      (hrest : ∀ c ∈ rest.head?, isWordChar c = false) : Cut (.word w) rest
  /-- blanks are taken one by one -/
  | blank {c : Char} {rest : List Char} (hc : isBlank c = true) : Cut (.blank c) rest
  /-- so is everything else that does not begin a comment -/
  | mark {c : Char} {rest : List Char} (hq : isQuote c = false) (hb : isBlank c = false)
      (hw : isWordChar c = false)
      (hcomment : c = '/' → ∀ d ∈ rest.head?, d ≠ '/' ∧ d ≠ '*') : Cut (.mark c) rest

/-- A text and its tokens by the rules. -/
inductive Lexed : List Char → List Token → Prop where
  /-- nothing is left -/
  | nil : Lexed [] []
  /-- a token is cut off -/
  | cons {t : Token} {rest : List Char} {ts : List Token} (ht : t.Cut rest)
      (h : Lexed rest ts) : Lexed (t.text ++ rest) (t :: ts)

/-! ## Kinds of characters -/

theorem isWordChar_eq_false_of_isBlank {c : Char} (h : isBlank c = true) :
    isWordChar c = false := by
  simp only [isBlank, Bool.or_eq_true, beq_iff_eq] at h
  obtain (((rfl | rfl) | rfl) | rfl) | rfl := h <;> decide

theorem isWordChar_eq_false_of_isQuote {c : Char} (h : isQuote c = true) :
    isWordChar c = false := by
  simp only [isQuote, Bool.or_eq_true, beq_iff_eq] at h
  obtain (rfl | rfl) | rfl := h <;> decide

theorem isQuote_eq_false_of_isBlank {c : Char} (h : isBlank c = true) : isQuote c = false := by
  simp only [isBlank, Bool.or_eq_true, beq_iff_eq] at h
  obtain (((rfl | rfl) | rfl) | rfl) | rfl := h <;> decide

namespace Token

/-! ## What the first token is -/

theorem first_of_ne {c : Char} (h : c ≠ '/') (cs : List Char) :
    first c cs = if isQuote c then (literal c (literalEnd c cs).1 (literalEnd c cs).2.1,
        (literalEnd c cs).2.2)
      else if isBlank c then (blank c, cs)
      else if isWordChar c then (word (c :: cs.takeWhile isWordChar), cs.dropWhile isWordChar)
      else (mark c, cs) := by
  rw [first.eq_def]
  split
  · exact absurd rfl h
  · exact absurd rfl h
  · rfl

theorem first_of_isQuote {c : Char} (h : isQuote c = true) (cs : List Char) :
    first c cs = (literal c (literalEnd c cs).1 (literalEnd c cs).2.1,
      (literalEnd c cs).2.2) := by
  have hc : c ≠ '/' := by
    rintro rfl
    exact absurd h (by decide)
  rw [first_of_ne hc, if_pos h]

theorem first_of_isBlank {c : Char} (h : isBlank c = true) (cs : List Char) :
    first c cs = (blank c, cs) := by
  have hc : c ≠ '/' := by
    rintro rfl
    exact absurd h (by decide)
  rw [first_of_ne hc, isQuote_eq_false_of_isBlank h, h]
  rfl

theorem first_of_isWordChar {c : Char} (h : isWordChar c = true) (cs : List Char) :
    first c cs = (word (c :: cs.takeWhile isWordChar), cs.dropWhile isWordChar) := by
  have hc : c ≠ '/' := by
    rintro rfl
    exact absurd h (by decide)
  have hq : ¬isQuote c = true := fun hq => by
    rw [isWordChar_eq_false_of_isQuote hq] at h
    cases h
  have hb : ¬isBlank c = true := fun hb => by
    rw [isWordChar_eq_false_of_isBlank hb] at h
    cases h
  rw [first_of_ne hc, if_neg hq, if_neg hb, if_pos h]

/-- A slash that begins no comment is a mark. -/
theorem first_slash {cs : List Char} (h : ∀ d ∈ cs.head?, d ≠ '/' ∧ d ≠ '*') :
    first '/' cs = (mark '/', cs) := by
  rw [first.eq_def]
  split
  · exact absurd rfl (h '/' rfl).1
  · exact absurd rfl (h '*' rfl).2
  · rfl

/-! ## Comments -/

/-- An end mark that is not read yet is not there. -/
theorem blockEnd_append {body : List Char} (h : ¬['*', '/'] <:+: body) (rest : List Char) :
    blockEnd (body ++ '*' :: '/' :: rest) = (body ++ ['*', '/'], rest) := by
  induction body with
  | nil => rfl
  | cons c body ih =>
    rw [List.infix_cons_iff, not_or] at h
    have hne : ∀ tail, c = '*' → body ++ '*' :: '/' :: rest = '/' :: tail → False := by
      rintro tail rfl htail
      cases body with
      | nil => cases htail
      | cons d body =>
        obtain ⟨rfl, -⟩ := List.cons.inj htail
        exact h.1 ⟨body, rfl⟩
    rw [List.cons_append, blockEnd, ih h.2]
    · rfl
    · exact hne

/-- Without an end mark everything is taken. -/
theorem blockEnd_of_not_infix {cs : List Char} (h : ¬['*', '/'] <:+: cs) :
    blockEnd cs = (cs, []) := by
  induction cs with
  | nil => rfl
  | cons c cs ih =>
    rw [List.infix_cons_iff, not_or] at h
    have hne : ∀ tail, c = '*' → cs = '/' :: tail → False := by
      rintro tail rfl rfl
      exact h.1 ⟨tail, rfl⟩
    rw [blockEnd, ih h.2]
    exact hne

/-- What a block comment takes ends with its only end mark, or is everything. -/
theorem blockEnd_cases (cs : List Char) :
    (∃ body, ¬['*', '/'] <:+: body ∧ (blockEnd cs).1 = body ++ ['*', '/']) ∨
      (¬['*', '/'] <:+: (blockEnd cs).1 ∧ (blockEnd cs).2 = []) := by
  fun_induction blockEnd cs with
  | case1 => exact .inr ⟨by simp, rfl⟩
  | case2 rest => exact .inl ⟨[], by simp, rfl⟩
  | case3 c rest hne ih =>
    have htext := blockEnd_text rest
    -- the first two characters are no end mark
    have hcons : ∀ body, body <+: rest → ¬['*', '/'] <:+: body → ¬['*', '/'] <:+: c :: body := by
      rintro body ⟨tail, rfl⟩ hbody
      rw [List.infix_cons_iff, not_or]
      refine ⟨?_, hbody⟩
      rintro ⟨more, hmore⟩
      obtain ⟨rfl, rfl⟩ := List.cons.inj hmore
      exact hne _ rfl rfl
    rcases ih with ⟨body, hbody, htaken⟩ | ⟨hnone, hempty⟩
    · refine .inl ⟨c :: body, hcons body ?_ hbody, by rw [htaken]; rfl⟩
      rw [← htext, htaken, List.append_assoc]
      exact List.prefix_append body _
    · refine .inr ⟨hcons _ ?_ hnone, hempty⟩
      exact ⟨_, htext⟩

/-! ## Literals -/

theorem ne_backslash_of_isQuote {q : Char} (h : isQuote q = true) : q ≠ '\\' := by
  rintro rfl
  exact absurd h (by decide)

theorem literalEnd_of_ne {c : Char} (h : c ≠ '\\') (q : Char) (cs : List Char) :
    literalEnd q (c :: cs) = if c = q then ([], true, cs)
      else if c = '\n' ∧ q ≠ '\x60' then ([], false, c :: cs)
      else (c :: (literalEnd q cs).1, (literalEnd q cs).2) := by
  rw [literalEnd]
  · exact fun hc => absurd hc h
  · exact fun _ _ hc => absurd hc h

/-- The inside is taken as a whole. -/
theorem literalEnd_append {q : Char} {body : List Char} (hbody : Inside q body)
    (rest : List Char) :
    literalEnd q (body ++ rest) = (body ++ (literalEnd q rest).1, (literalEnd q rest).2) := by
  induction hbody with
  | nil => rfl
  | @char c body hq hescape hline _ ih =>
    have hends : ¬(c = '\n' ∧ q ≠ '\x60') := fun h => h.2 (hline h.1)
    rw [List.cons_append, literalEnd_of_ne hescape, if_neg hq, if_neg hends, ih]
    rfl
  | escape c _ ih =>
    rw [List.cons_append, List.cons_append, literalEnd, ih]
    rfl

/-- What a literal takes is an inside, and ends for one of three reasons. -/
theorem literalEnd_cases (q : Char) (cs : List Char) :
    (Inside q (literalEnd q cs).1 ∧ ((literalEnd q cs).2.1 = true ∨
      (literalEnd q cs).2.1 = false ∧
        ∀ c ∈ (literalEnd q cs).2.2.head?, c = '\n' ∧ q ≠ '\x60')) ∨
    ∃ body, Inside q body ∧ literalEnd q cs = (body ++ ['\\'], false, []) := by
  fun_induction literalEnd q cs with
  | case1 => exact .inl ⟨.nil, .inr ⟨rfl, by simp⟩⟩
  | case2 => exact .inr ⟨[], .nil, rfl⟩
  | case3 c rest body closed after hend ih =>
    rw [hend] at ih
    rcases ih with ⟨hbody, hends⟩ | ⟨inside, hinside, heq⟩
    · exact .inl ⟨.escape c hbody, hends⟩
    · cases heq
      exact .inr ⟨_, .escape c hinside, rfl⟩
  | case4 => exact .inl ⟨.nil, .inl rfl⟩
  | case5 c rest _ _ _ hline =>
    refine .inl ⟨.nil, .inr ⟨rfl, ?_⟩⟩
    rintro d ⟨⟩
    exact hline
  | case6 c rest hlast hescape hq hline body closed after hend ih =>
    have hne : c ≠ '\\' := fun hc => by
      cases rest with
      | nil => exact hlast hc rfl
      | cons d rest => exact hescape d rest hc rfl
    have hon : c = '\n' → q = '\x60' := fun hc =>
      Decidable.byContradiction fun hquote => hline ⟨hc, hquote⟩
    rw [hend] at ih
    rcases ih with ⟨hbody, hends⟩ | ⟨inside, hinside, heq⟩
    · exact .inl ⟨.char hq hne hon hbody, hends⟩
    · cases heq
      exact .inr ⟨_, .char hq hne hon hinside, rfl⟩

/-! ## The first token -/

/-- **The first token of a text keeps the rules.** -/
theorem cut_first (c : Char) (cs : List Char) : (first c cs).1.Cut (first c cs).2 := by
  rw [first.eq_def]
  split
  · next rest =>
    refine .line (fun h => ?_) fun d hd => ?_
    · have hmem := List.all_eq_true.1 List.all_takeWhile _ h
      simp at hmem
    · have hhead := List.head?_dropWhile_not (· != '\n') rest
      rw [Option.mem_def.1 hd] at hhead
      simpa using hhead
  · next rest =>
    rcases blockEnd_cases rest with ⟨body, hbody, htaken⟩ | ⟨hnone, hempty⟩
    · rw [htaken]
      exact .block hbody
    · rw [hempty]
      exact .openBlock hnone
  · next hline hblock =>
    split
    · next hq =>
      change Cut (literal c (literalEnd c cs).1 (literalEnd c cs).2.1) (literalEnd c cs).2.2
      rcases literalEnd_cases c cs with ⟨hbody, hclosed | ⟨hclosed, hends⟩⟩ | ⟨body, hbody, heq⟩
      · rw [hclosed]
        exact .closed hq hbody
      · rw [hclosed]
        exact .unclosed hq hbody hends
      · rw [heq]
        exact .unescaped hq hbody
    · next hq =>
      split
      · next hb => exact .blank hb
      · next hb =>
        split
        · next hw =>
          refine .word (List.cons_ne_nil _ _) (fun d hd => ?_) fun d hd => ?_
          · rcases List.mem_cons.1 hd with rfl | hd
            · exact hw
            · exact List.all_eq_true.1 List.all_takeWhile d hd
          · have hhead := List.head?_dropWhile_not isWordChar cs
            rw [Option.mem_def.1 hd] at hhead
            exact hhead
        · next hw =>
          refine .mark (Bool.eq_false_iff.2 hq) (Bool.eq_false_iff.2 hb)
            (Bool.eq_false_iff.2 hw) ?_
          rintro rfl d hd
          obtain ⟨rest, rfl⟩ := List.head?_eq_some_iff.1 hd
          constructor
          · rintro rfl
            exact hline rest rfl rfl
          · rintro rfl
            exact hblock rest rfl rfl

/-- A longest run of characters is told by the one behind it. -/
theorem takeWhile_append_of_head? {p : Char → Bool} {run rest : List Char}
    (hrun : ∀ c ∈ run, p c = true) (hrest : ∀ c ∈ rest.head?, p c = false) :
    (run ++ rest).takeWhile p = run ∧ (run ++ rest).dropWhile p = rest := by
  rw [List.takeWhile_append_of_pos hrun, List.dropWhile_append_of_pos hrun]
  cases rest with
  | nil => simp
  | cons c rest =>
    have hc := hrest c rfl
    simp [hc]

/-- A literal that keeps the rules is what its quote begins. -/
theorem literalEnd_of_cut {q : Char} {body rest : List Char} {closed : Bool}
    (h : (literal q body closed).Cut rest) :
    literalEnd q (body ++ (if closed then [q] else []) ++ rest) = (body, closed, rest) := by
  cases h with
  | closed hq hbody =>
    rw [if_pos rfl, List.append_assoc, literalEnd_append hbody, List.singleton_append,
      literalEnd_of_ne (ne_backslash_of_isQuote hq), if_pos rfl, List.append_nil]
  | unclosed hq hbody hrest =>
    rw [if_neg Bool.false_ne_true, List.append_nil, literalEnd_append hbody]
    cases rest with
    | nil => rw [literalEnd, List.append_nil]
    | cons c rest =>
      obtain ⟨rfl, hquote⟩ := hrest c rfl
      have hne : '\n' ≠ q := by
        rintro rfl
        exact absurd hq (by decide)
      rw [literalEnd_of_ne (by decide), if_neg hne, if_pos ⟨rfl, hquote⟩, List.append_nil]
  | unescaped hq hbody =>
    rw [if_neg Bool.false_ne_true, List.append_nil, List.append_nil, literalEnd_append hbody,
      literalEnd]

theorem Cut.isQuote {q : Char} {body rest : List Char} {closed : Bool}
    (h : (literal q body closed).Cut rest) : isQuote q = true := by
  cases h with
  | closed hq | unclosed hq | unescaped hq => exact hq

/-- A token that keeps the rules is not empty. -/
theorem Cut.text_ne_nil {t : Token} {rest : List Char} (h : t.Cut rest) : t.text ≠ [] := by
  cases h with
  | word hne => exact hne
  | _ => exact List.cons_ne_nil _ _

/-- **No other token keeps the rules.** -/
theorem first_eq_of_cut {t : Token} {c : Char} {cs rest : List Char} (h : t.Cut rest)
    (htext : t.text ++ rest = c :: cs) : first c cs = (t, rest) := by
  cases t with
  | comment s =>
    cases h with
    | @line body _ hbody hrest =>
      cases htext
      have hline : ∀ d ∈ body, (d != '\n') = true := fun d hd =>
        bne_iff_ne.2 fun hd' => hbody (hd' ▸ hd)
      obtain ⟨htake, hdrop⟩ := takeWhile_append_of_head? hline
        fun d hd => bne_eq_false_iff_eq.2 (hrest d hd)
      change (comment ('/' :: '/' :: (body ++ rest).takeWhile (· != '\n')),
        (body ++ rest).dropWhile (· != '\n')) = _
      rw [htake, hdrop]
    | @block body _ hbody =>
      cases htext
      change (comment ('/' :: '*' :: (blockEnd (body ++ ['*', '/'] ++ rest)).1),
        (blockEnd (body ++ ['*', '/'] ++ rest)).2) = _
      rw [List.append_assoc, List.cons_append, List.cons_append, List.nil_append,
        blockEnd_append hbody]
    | @openBlock body hbody =>
      cases htext
      change (comment ('/' :: '*' :: (blockEnd (body ++ [])).1), (blockEnd (body ++ [])).2) = _
      rw [List.append_nil, blockEnd_of_not_infix hbody]
  | literal q body closed =>
    have hend := literalEnd_of_cut h
    have hcons : c = q ∧ cs = body ++ (if closed then [q] else []) ++ rest := by
      cases closed with
      | true =>
        cases htext
        simp
      | false =>
        cases htext
        simp
    obtain ⟨rfl, rfl⟩ := hcons
    rw [first_of_isQuote h.isQuote, hend]
  | word w =>
    cases h with
    | word hne hw hrest =>
      obtain ⟨d, w, rfl⟩ := List.exists_cons_of_ne_nil hne
      rw [text, List.cons_append] at htext
      obtain ⟨rfl, rfl⟩ := List.cons.inj htext
      obtain ⟨htake, hdrop⟩ := takeWhile_append_of_head?
        (fun c hc => hw c (List.mem_cons_of_mem d hc)) hrest
      rw [first_of_isWordChar (hw d List.mem_cons_self), htake, hdrop]
  | blank b =>
    cases h with
    | blank hb =>
      cases htext
      exact first_of_isBlank hb _
  | mark m =>
    cases h with
    | mark hq hb hw hcomment =>
      cases htext
      by_cases hslash : c = '/'
      · subst hslash
        exact first_slash (hcomment rfl)
      · rw [first_of_ne hslash, hq, hb, hw]
        rfl

end Token

/-- **The tokens of a text are the ones by the rules**, and there are no others. -/
theorem tokens_eq_iff_lexed {cs : List Char} {ts : List Token} :
    tokens cs = ts ↔ Lexed cs ts := by
  constructor
  · rintro rfl
    fun_induction tokens cs with
    | case1 => exact .nil
    | case2 c cs ih =>
      have h := Lexed.cons (Token.cut_first c cs) ih
      rw [Token.first_text] at h
      exact h
  · intro h
    induction h with
    | nil => rw [tokens]
    | @cons t rest ts ht _ ih =>
      rcases htext : t.text ++ rest with _ | ⟨c, cs⟩
      · exact absurd (List.append_eq_nil_iff.1 htext).1 ht.text_ne_nil
      · rw [tokens, Token.first_eq_of_cut ht htext, ih]

/-! ## Texts one after the other -/

/-- What is left matters only by its first character. -/
theorem Token.Cut.append {t : Token} {rest : List Char} (h : t.Cut rest) (hrest : rest ≠ [])
    (more : List Char) : t.Cut (rest ++ more) := by
  have hhead : (rest ++ more).head? = rest.head? := by
    obtain ⟨c, tail, rfl⟩ := List.exists_cons_of_ne_nil hrest
    rfl
  cases h with
  | line hbody hends => exact .line hbody (hhead ▸ hends)
  | block hbody => exact .block hbody
  | openBlock => exact absurd rfl hrest
  | closed hq hbody => exact .closed hq hbody
  | unclosed hq hbody hends => exact .unclosed hq hbody (hhead ▸ hends)
  | unescaped => exact absurd rfl hrest
  | word hne hw hends => exact .word hne hw (hhead ▸ hends)
  | blank hb => exact .blank hb
  | mark hq hb hw hcomment => exact .mark hq hb hw (hhead ▸ hcomment)

/-- Texts are cut one after the other if the last token of the first one ends where the
second one begins. -/
theorem Lexed.append {cs ds : List Char} {ts us : List Token} (hcs : Lexed cs ts)
    (hlast : ∀ t ∈ ts.getLast?, t.Cut ds) (hds : Lexed ds us) : Lexed (cs ++ ds) (ts ++ us) := by
  induction hcs with
  | nil => exact hds
  | @cons t rest ts ht hrest ih =>
    rw [List.append_assoc, List.cons_append]
    cases hrest with
    | nil => exact .cons (hlast t rfl) hds
    | @cons u rest ts hu hrest =>
      have hne : u.text ++ rest ≠ [] := fun h => hu.text_ne_nil (List.append_eq_nil_iff.1 h).1
      refine .cons (ht.append hne ds) (ih fun v hv => hlast v ?_)
      rw [List.getLast?_cons_cons]
      exact hv

end ModuleLookup
