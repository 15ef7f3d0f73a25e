import ModuleLookup.Proofs.Cursor.Machine

/-!
# Calls under the cursor

* `stringLiteral_closed`, `stringLiteral_open`, `stringLiteral_none` — strings.
* `reads_argument` and `reads_called` — the calls behind `import` and `require`.
-/

namespace ModuleLookup.Cursor

open Stage (code called argument closing stringBody? refer enter)

section

variable {cs : List Char} {ts us gap : List Token} {t : Token}

/-! ## Literals -/

/-- Strings are the literals in single or double quotes. -/
theorem isString_sign (h : tokens cs = ts ++ t :: us) :
    (sign t = '\x22' ∨ sign t = '\x27') ↔ (stringBody? t).isSome = true := by
  by_cases hliteral : ∃ q body closed, t = .literal q body closed
  · obtain ⟨q, body, closed, rfl⟩ := hliteral
    have hq := isQuote_of_tokens_eq h
    simp only [isQuote, Bool.or_eq_true, beq_iff_eq] at hq
    rw [stringBody?, sign]
    rcases hq with (rfl | rfl) | rfl
    · simp
    · simp
    · simp
  · have hquote : isQuote (sign t) ≠ true := fun hq => hliteral ((isQuote_sign h).1 hq)
    have hbody : stringBody? t = none := by
      cases t with
      | literal q body closed => exact absurd ⟨q, body, closed, rfl⟩ hliteral
      | _ => rfl
    refine iff_of_false ?_ (by rw [hbody]; simp)
    rintro (heq | heq)
    · exact hquote (by rw [heq]; decide)
    · exact hquote (by rw [heq]; decide)

theorem stringLiteral_of_string {body : List Char} {closed : Bool} (h : tokens cs = ts ++ t :: us)
    (hbody : stringBody? t = some (body, closed)) :
    stringLiteral (bytesOf cs) (offsetBehind ts)
      = .ok (if closed then some ⟨offsetBehind ts + 1, offsetBehind ts + 1 + byteLength body⟩
          else none, offsetBehind (ts ++ [t])) := by
  have hstring : sign t = '\x22' ∨ sign t = '\x27' := (isString_sign h).2 (by rw [hbody]; rfl)
  obtain ⟨q, -, rfl⟩ := Stage.stringBody?_eq_some_iff.1 hbody
  rw [stringLiteral, peek_token h]
  refine (if_pos hstring).trans ?_
  rw [skipString_literal h, ok_bind]
  cases closed <;> rfl

/-- **A string is read** if it is closed. -/
theorem stringLiteral_closed {body : List Char} (h : tokens cs = ts ++ t :: us)
    (hbody : stringBody? t = some (body, true)) :
    stringLiteral (bytesOf cs) (offsetBehind ts)
      = .ok (some ⟨offsetBehind ts + 1, offsetBehind ts + 1 + byteLength body⟩,
        offsetBehind (ts ++ [t])) :=
  stringLiteral_of_string h hbody

/-- It is stepped over if it is open. -/
theorem stringLiteral_open {body : List Char} (h : tokens cs = ts ++ t :: us)
    (hbody : stringBody? t = some (body, false)) :
    stringLiteral (bytesOf cs) (offsetBehind ts) = .ok (none, offsetBehind (ts ++ [t])) :=
  stringLiteral_of_string h hbody

/-- Nothing else is. -/
theorem stringLiteral_none (h : tokens cs = ts ++ us)
    (hbody : ∀ t ∈ us.head?, stringBody? t = none) :
    stringLiteral (bytesOf cs) (offsetBehind ts) = .ok (none, offsetBehind ts) := by
  rw [stringLiteral]
  cases us with
  | nil => rw [peek_end h]
  | cons t us =>
    rw [peek_token h]
    refine if_neg ?_
    rw [isString_sign h, hbody t rfl]
    exact Bool.false_ne_true

/-! ## Calls -/

theorem callArgument_eq (h : tokens cs = ts ++ (gap ++ us))
    (hgap : ∀ t ∈ gap, t.isTrivia = true) (hus : ∀ t ∈ us.head?, t.isTrivia = false) :
    callArgument (bytesOf cs) (offsetBehind ts) = if us.head? = some (.mark '(') then
        argumentAt (bytesOf cs) (offsetBehind (ts ++ gap ++ [.mark '(']))
      else .ok (none, offsetBehind (ts ++ gap)) := by
  have hbehind : tokens cs = (ts ++ gap) ++ us := by rw [h, List.append_assoc]
  have hmark := peek_eq_mark_iff hbehind (c := '(') (by decide) (by decide) (by decide) (by decide)
  rw [callArgument, skipTrivia_eq h hgap hus, ok_bind, offsetBehind_append (ts ++ gap)]
  simp only [hmark]
  rfl

/-- A literal that waits for the end of its call. -/
theorem reads_closing (r : Reference) (h : tokens cs = ts ++ us)
    (hus : ∀ t ∈ us.head?, t.isTrivia = false) :
    Reads cs (closing r) ts us (.ok (if peek (bytesOf cs) (offsetBehind ts) = some ')' ∨
      peek (bytesOf cs) (offsetBehind ts) = some ',' then some r.found else none,
        offsetBehind ts)) := by
  have hmark {c : Char} (hc : c = ')' ∨ c = ',') :
      peek (bytesOf cs) (offsetBehind ts) = some c ↔ us.head? = some (.mark c) := by
    rcases hc with rfl | rfl <;>
      exact peek_eq_mark_iff h (by decide) (by decide) (by decide) (by decide)
  simp only [hmark (.inl rfl), hmark (.inr rfl)]
  split
  · next hends =>
    refine Reads.here h ?_
    obtain ⟨c, us, rfl, hc⟩ : ∃ c vs, us = .mark c :: vs ∧ (c = ')' ∨ c = ',') := by
      rcases hends with hends | hends
      · obtain ⟨vs, rfl⟩ := List.head?_eq_some_iff.1 hends
        exact ⟨_, vs, rfl, .inl rfl⟩
      · obtain ⟨vs, rfl⟩ := List.head?_eq_some_iff.1 hends
        exact ⟨_, vs, rfl, .inr rfl⟩
    have hcode : code.step (lexemeBehind ts (.mark c)) = (code, none) :=
      congrArg (·, none) (Stage.enter_of_not_word (by simp [lexemeBehind]))
    have hclosing : (closing r).step (lexemeBehind ts (.mark c)) = (code, some r) := by
      rcases hc with rfl | rfl <;> rfl
    rw [finds_of_step_some hclosing, finds_of_step hcode]
    rfl
  · next hends =>
    refine Reads.give_up h fun t ht => ?_
    have hmark : ¬(t = .mark ')' ∨ t = .mark ',') := by
      rw [Option.mem_def.1 ht] at hends
      simpa using hends
    show (closing r).step _ = (enter _, none)
    rw [Stage.step, if_neg (not_isTrivia ts (hus t ht))]
    exact if_neg hmark

theorem enter_literal {q : Char} {body : List Char} {closed : Bool} (ts : List Token) :
    enter (lexemeBehind ts (.literal q body closed)) = code :=
  Stage.enter_of_not_word (by simp [lexemeBehind])

/-- **The argument of a call.** -/
theorem reads_argument (kind : Reference.Kind) (h : tokens cs = ts ++ us) :
    Reads cs (argument kind) ts us
      (Outcome.as kind <$> argumentAt (bytesOf cs) (offsetBehind ts)) := by
  obtain ⟨gap, us, rfl, hgap, hus⟩ := exists_gap us
  have hstep (l : Lexeme) (hl : l.isTrivia = true) :
      (argument kind).step l = (argument kind, none) := by
    rw [Stage.step, if_pos hl]
  have hbehind : tokens cs = (ts ++ gap) ++ us := by rw [h, List.append_assoc]
  refine Reads.append ?_ (finds_gap hstep hgap ts us)
  rw [argumentAt, skipTrivia_eq h hgap hus, ok_bind]
  by_cases hstring : ∃ t vs body closed, us = t :: vs ∧ stringBody? t = some (body, closed)
  · obtain ⟨t, us, body, closed, rfl, hbody⟩ := hstring
    have hafter : tokens cs = (ts ++ gap ++ [t]) ++ us := by rw [hbehind, ← List.append_cons]
    have htrivia := not_isTrivia (ts ++ gap) (hus t rfl)
    cases closed with
    | false =>
      -- an open literal is stepped over
      have hopen : (argument kind).step (lexemeBehind (ts ++ gap) t) = (code, none) := by
        obtain ⟨q, -, rfl⟩ := Stage.stringBody?_eq_some_iff.1 hbody
        rw [Stage.step, if_neg htrivia, lexemeBehind, hbody]
        exact congrArg (·, none) (enter_literal (ts ++ gap))
      rw [stringLiteral_open hbehind hbody]
      exact Reads.behind hbehind (finds_of_step hopen us)
    | true =>
      have hwait : (argument kind).step (lexemeBehind (ts ++ gap) t)
          = (closing (refer kind (lexemeBehind (ts ++ gap) t) body), none) := by
        rw [Stage.step, if_neg htrivia, lexemeBehind, hbody]
      refine Reads.cons ?_ (finds_of_step hwait us)
      obtain ⟨gap', us, rfl, hgap', hus'⟩ := exists_gap us
      have hrest : tokens cs = (ts ++ gap ++ [t] ++ gap') ++ us := by
        rw [hafter, List.append_assoc (ts ++ gap ++ [t])]
      have hclosing (l : Lexeme) (hl : l.isTrivia = true) :
          (closing (refer kind (lexemeBehind (ts ++ gap) t) body)).step l
            = (closing (refer kind (lexemeBehind (ts ++ gap) t) body), none) := by
        rw [Stage.step, if_pos hl]
      refine Reads.append ?_ (finds_gap hclosing hgap' (ts ++ gap ++ [t]) us)
      rw [stringLiteral_closed hbehind hbody, ok_bind]
      show Reads _ _ _ _ (_ <$> (do let p ← skipTrivia _ _; _))
      rw [skipTrivia_eq hafter hgap' hus', ok_bind]
      have hreads := reads_closing (refer kind (lexemeBehind (ts ++ gap) t) body) hrest hus'
      rw [found_refer] at hreads
      refine Eq.mp (congrArg _ ?_) hreads
      split <;> rfl
  · have hbody : ∀ t ∈ us.head?, stringBody? t = none := by
      intro t ht
      obtain ⟨vs, rfl⟩ := List.head?_eq_some_iff.1 ht
      refine Option.eq_none_iff_forall_ne_some.2 fun string hstr => ?_
      exact hstring ⟨t, vs, string.1, string.2, rfl, hstr⟩
    rw [stringLiteral_none hbehind hbody]
    refine Reads.give_up hbehind fun t ht => ?_
    show (argument kind).step _ = (enter _, none)
    rw [Stage.step, if_neg (not_isTrivia (ts ++ gap) (hus t ht)), lexemeBehind, hbody t ht]

/-- **A call** of `require`. -/
theorem reads_called (h : tokens cs = ts ++ us) :
    Reads cs called ts us (Outcome.as .require <$> callArgument (bytesOf cs) (offsetBehind ts)) := by
  obtain ⟨gap, us, rfl, hgap, hus⟩ := exists_gap us
  have hstep (l : Lexeme) (hl : l.isTrivia = true) : called.step l = (called, none) := by
    rw [Stage.step, if_pos hl]
  have hbehind : tokens cs = (ts ++ gap) ++ us := by rw [h, List.append_assoc]
  refine Reads.append ?_ (finds_gap hstep hgap ts us)
  rw [callArgument_eq h hgap hus]
  by_cases hcall : us.head? = some (.mark '(')
  · obtain ⟨us, rfl⟩ := List.head?_eq_some_iff.1 hcall
    have hopen : called.step (lexemeBehind (ts ++ gap) (.mark '(')) = (argument .require, none) :=
      rfl
    rw [if_pos hcall]
    exact Reads.cons (reads_argument .require (hbehind.trans (List.append_cons _ _ _)))
      (finds_of_step hopen us)
  · rw [if_neg hcall]
    refine Reads.give_up hbehind fun t ht => ?_
    have hmark : ¬t = .mark '(' := by
      rintro rfl
      exact hcall ht
    show called.step _ = (enter _, none)
    rw [Stage.step, if_neg (not_isTrivia _ (hus t ht))]
    exact if_neg hmark

end

end ModuleLookup.Cursor
