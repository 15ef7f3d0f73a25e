import ModuleLookup.Proofs.Source.Clause

/-!
# Calls of `require`

A call that stands in code is found unless the machine is inside a clause when it comes to
the word: then the word belongs to the clause, and the parenthesis behind it ends the
clause too late.

* `RequireCall` — a call as it is written in a text.
* `Stage.step_require` — the word opens a call, or is taken into a clause;
  `Stage.run_called` and `Stage.Passing.run_call` go on from there to the literal.
* `RequireCall.reference_mem_iff` — the exact condition.
-/

namespace ModuleLookup

namespace Stage

variable {s : Stage}

/-! ## Where references come from -/

theorem enter_ne_closing (l : Lexeme) (r : Reference) : enter l ≠ closing r := by
  rw [enter]
  split_ifs <;> simp

theorem inClause_ne_closing (kind : Reference.Kind) (n : Nat) (l : Lexeme) (r : Reference) :
    inClause kind n l ≠ closing r := by
  rw [inClause_eq]
  split
  · exact enter_ne_closing l r
  · split <;> simp

/-- A reference is made by a closed literal, and is either completed at once or waits. -/
theorem exists_refer_of_step {l : Lexeme} {r : Reference}
    (h : (s.step l).2 = some r ∨ (s.step l).1 = closing r) :
    s = closing r ∨
      ∃ kind body, stringBody? l.token = some (body, true) ∧ r = refer kind l body := by
  have henter := enter_ne_closing l r
  cases s with
  | code => simp [step, henter] at h
  | called =>
    rw [step] at h
    split at h
    · simp at h
    · split at h
      · simp at h
      · simp [henter] at h
  | argument kind =>
    rw [step] at h
    split at h
    · simp at h
    · split at h
      · next body hbody =>
        simp only [reduceCtorEq, closing.injEq, false_or] at h
        exact .inr ⟨kind, body, hbody, h.symm⟩
      · simp [henter] at h
  | closing found =>
    left
    rw [step] at h
    split at h
    · simpa using h
    · split at h
      · simpa using h
      · simp [henter] at h
  | imported =>
    rw [step] at h
    split at h
    · simp at h
    · split at h
      · simp at h
      · split at h
        · next body hbody =>
          simp only [Option.some.injEq, reduceCtorEq, or_false] at h
          exact .inr ⟨.sideEffect, body, hbody, h.symm⟩
        · simp at h
        · simp [inClause_ne_closing] at h
  | clause kind n => simp [step, inClause_ne_closing] at h
  | sought kind n =>
    rw [step] at h
    split at h
    · simp at h
    · split at h
      · next body hbody =>
        simp only [Option.some.injEq, reduceCtorEq, or_false] at h
        exact .inr ⟨kind, body, hbody, h.symm⟩
      · simp at h
      · simp [inClause_ne_closing] at h

/-- Every reference of a run is made by one of its lexemes. -/
theorem exists_refer_of_mem_run {ls : List Lexeme} {r : Reference} (h : r ∈ s.run ls) :
    s = closing r ∨ ∃ l ∈ ls, ∃ kind body,
      stringBody? l.token = some (body, true) ∧ r = refer kind l body := by
  induction ls generalizing s with
  | nil => exact absurd h List.not_mem_nil
  | cons l ls ih =>
    rw [run, List.mem_append, Option.mem_toList] at h
    have here (h : (s.step l).2 = some r ∨ (s.step l).1 = closing r) :
        s = closing r ∨ ∃ m ∈ l :: ls, ∃ kind body,
          stringBody? m.token = some (body, true) ∧ r = refer kind m body := by
      rcases exists_refer_of_step h with hs | hl
      · exact .inl hs
      · exact .inr ⟨l, List.mem_cons_self, hl⟩
    rcases h with h | h
    · exact here (.inl h)
    · rcases ih h with h | ⟨m, hm, hrefer⟩
      · exact here (.inr h)
      · exact .inr ⟨m, List.mem_cons_of_mem l hm, hrefer⟩

/-- Every reference of a run starts inside one of its lexemes. -/
theorem start_of_mem_run {ls : List Lexeme} {r : Reference} (h : r ∈ s.run ls) :
    s = closing r ∨ ∃ l ∈ ls, 0 < l.size ∧ r.start = l.place.offset + 1 := by
  rcases exists_refer_of_mem_run h with h | ⟨l, hl, kind, body, hbody, rfl⟩
  · exact .inl h
  · exact .inr ⟨l, hl, size_pos_of_stringBody? hbody, rfl⟩

/-- A reference is not found in front of its literal. -/
theorem not_mem_run_before {q : Lexeme} {ls : List Lexeme} {r : Reference}
    (hr : r.start = q.place.offset + 1)
    (hls : ∀ l ∈ ls, l.place.offset + l.size ≤ q.place.offset) : r ∉ code.run ls := by
  intro h
  rcases start_of_mem_run h with h | ⟨l, hl, hsize, hstart⟩
  · cases h
  · have hbound := hls l hl
    omega

/-- A reference is not found behind its literal. -/
theorem not_mem_run_behind {q : Lexeme} {ls : List Lexeme} {r : Reference}
    (hr : r.start = q.place.offset + 1) (hq : 0 < q.size)
    (hls : ∀ l ∈ ls, q.place.offset + q.size ≤ l.place.offset) : r ∉ code.run ls := by
  intro h
  rcases start_of_mem_run h with h | ⟨l, hl, -, hstart⟩
  · cases h
  · have hbound := hls l hl
    omega

/-! ## The word -/

theorem inClause_require {w : Lexeme} (hw : w.isKeyword "require" = true)
    (kind : Reference.Kind) {n : Nat} (hn : n ≠ 0) :
    inClause kind n w = clause kind (n - w.size) := by
  have hends := Lexeme.endsClause_of_isKeyword hw (by decide) (by decide)
  rw [inClause_eq, if_neg (by simp [hn, hends]),
    Lexeme.isKeyword_of_isKeyword hw "from" (by decide)]
  rfl

/-- Stages that pass over a call: the word was taken into a clause. -/
def Passing (s : Stage) : Prop :=
  s = code ∨ ∃ kind n, s = clause kind n

/-- The word opens a call, unless a clause takes it. -/
theorem step_require {w : Lexeme} (hw : w.isKeyword "require" = true) (s : Stage) :
    (s.budget = 0 → s.step w = (called, none)) ∧
      (s.budget ≠ 0 → ∃ t, t.Passing ∧ s.step w = (t, none)) := by
  have htoken := (Lexeme.isKeyword_iff.1 hw).2
  have htrivia := Lexeme.isTrivia_of_isKeyword hw
  have henter := enter_of_require hw
  have hzero (kind : Reference.Kind) : inClause kind 0 w = called := by
    rw [inClause, if_pos rfl, henter]
  have hin := inClause_require hw
  have hbody : stringBody? w.token = none := by
    rw [htoken]
    rfl
  cases s with
  | code => simp [step, henter, budget]
  | called => simp [step, henter, budget, htrivia, htoken]
  | argument kind => simp [step, henter, budget, htrivia, hbody]
  | closing found => simp [step, henter, budget, htrivia, htoken]
  | imported =>
    -- the word is the first of the clause that `import` begins
    have hlimit : clauseLimit ≠ 0 := by decide
    refine ⟨fun hn => absurd hn hlimit, fun _ => ?_⟩
    refine ⟨clause .importFrom (clauseLimit - w.size), .inr ⟨_, _, rfl⟩, ?_⟩
    simp [step, htrivia, htoken, stringBody?, hin .importFrom hlimit]
  | clause kind n =>
    -- a clause that may take nothing more is no clause
    refine ⟨fun hn => ?_, fun hn => ⟨_, .inr ⟨kind, _, hin kind hn⟩, rfl⟩⟩
    obtain rfl : n = 0 := hn
    rw [step, hzero]
  | sought kind n =>
    refine ⟨fun hn => ?_, fun hn => ⟨_, .inr ⟨kind, _, hin kind hn⟩, ?_⟩⟩
    · obtain rfl : n = 0 := hn
      simp [step, htrivia, hbody, hzero]
    · simp [step, htrivia, hbody, budget]

/-! ## Behind the word -/

/-- Lexemes that a stage passes over without a change. -/
theorem run_append_of_step_eq {ls : List Lexeme} (h : ∀ l ∈ ls, s.step l = (s, none))
    (ms : List Lexeme) : s.run (ls ++ ms) = s.run ms := by
  induction ls with
  | nil => rfl
  | cons l ls ih =>
    rw [List.cons_append, run, h l List.mem_cons_self,
      ih fun m hm => h m (List.mem_cons_of_mem l hm)]
    rfl

/-- Trivia, a parenthesis, trivia, a literal, trivia, and what closes the call. -/
structure CallTail (o q c : Lexeme) (gap₁ gap₂ gap₃ : List Lexeme) (body : List Char) :
    Prop where
  /-- the parenthesis -/
  opened : o.token = .mark '('
  /-- the literal -/
  literal : stringBody? q.token = some (body, true)
  /-- another parenthesis, or a comma -/
  closed : c.token = .mark ')' ∨ c.token = .mark ','
  /-- trivia in between -/
  trivia₁ : ∀ l ∈ gap₁, l.isTrivia = true
  /-- trivia in between -/
  trivia₂ : ∀ l ∈ gap₂, l.isTrivia = true
  /-- trivia in between -/
  trivia₃ : ∀ l ∈ gap₃, l.isTrivia = true

section Tails

variable {o q c : Lexeme} {gap₁ gap₂ gap₃ : List Lexeme} {body : List Char}

/-- Behind the parenthesis of a call, the reference is completed. -/
theorem run_argument (h : CallTail o q c gap₁ gap₂ gap₃ body) (kind : Reference.Kind)
    (ls : List Lexeme) :
    (argument kind).run (gap₂ ++ q :: (gap₃ ++ c :: ls)) = refer kind q body :: code.run ls := by
  have hargument (l : Lexeme) (hl : l ∈ gap₂) :
      (argument kind).step l = (argument kind, none) := by
    rw [step, if_pos (h.trivia₂ l hl)]
  have hliteral : (argument kind).step q = (closing (refer kind q body), none) := by
    rw [step, isTrivia_of_stringBody? h.literal, h.literal]
    rfl
  have hclosing (l : Lexeme) (hl : l ∈ gap₃) : (closing (refer kind q body)).step l
      = (closing (refer kind q body), none) := by
    rw [step, if_pos (h.trivia₃ l hl)]
  have hclosed : (closing (refer kind q body)).step c = (code, some (refer kind q body)) := by
    rw [step, if_neg, if_pos h.closed]
    rcases h.closed with hc | hc
    · rw [Lexeme.isTrivia, hc]
      decide
    · rw [Lexeme.isTrivia, hc]
      decide
  rw [run_append_of_step_eq hargument, run, hliteral, run_append_of_step_eq hclosing, run,
    hclosed]
  rfl

/-- Behind a word that opened a call, the reference is completed. -/
theorem run_called (h : CallTail o q c gap₁ gap₂ gap₃ body) (ls : List Lexeme) :
    called.run (gap₁ ++ o :: (gap₂ ++ q :: (gap₃ ++ c :: ls)))
      = refer .require q body :: code.run ls := by
  have hcalled (l : Lexeme) (hl : l ∈ gap₁) : called.step l = (called, none) := by
    rw [step, if_pos (h.trivia₁ l hl)]
  have hopened : called.step o = (argument .require, none) := by
    rw [step, Lexeme.isTrivia, h.opened, if_neg (by decide), if_pos rfl]
  rw [run_append_of_step_eq hcalled, run, hopened, run_argument h]
  rfl

/-- Trivia do not end a clause, but they may use it up. -/
theorem Passing.step_trivia (hs : s.Passing) {l : Lexeme} (hl : l.isTrivia = true) :
    ∃ t, Passing t ∧ s.step l = (t, none) := by
  have henter := enter_of_isTrivia hl
  rcases hs with rfl | ⟨kind, n, rfl⟩
  · exact ⟨code, .inl rfl, by rw [step, henter]⟩
  · refine ⟨_, ?_, rfl⟩
    rw [inClause_eq, Lexeme.isKeyword_eq_false (Lexeme.not_word_of_isTrivia hl), henter]
    split
    · exact .inl rfl
    · exact .inr ⟨kind, _, rfl⟩

theorem Passing.run_trivia (hs : s.Passing) {gap : List Lexeme}
    (hgap : ∀ l ∈ gap, l.isTrivia = true) (ls : List Lexeme) :
    ∃ t, Passing t ∧ s.run (gap ++ ls) = t.run ls := by
  induction gap generalizing s with
  | nil => exact ⟨s, hs, rfl⟩
  | cons l gap ih =>
    obtain ⟨t, ht, hstep⟩ := hs.step_trivia (hgap l List.mem_cons_self)
    obtain ⟨u, hu, hrun⟩ := ih ht fun m hm => hgap m (List.mem_cons_of_mem l hm)
    refine ⟨u, hu, ?_⟩
    rw [List.cons_append, run, hstep, ← hrun]
    rfl

/-- A parenthesis ends the clause that took the word. -/
theorem Passing.step_open (hs : s.Passing) {o : Lexeme} (ho : o.token = .mark '(') :
    s.step o = (code, none) := by
  have henter : enter o = code := enter_of_not_word fun w hw => by
    rw [ho] at hw
    cases hw
  rcases hs with rfl | ⟨kind, n, rfl⟩
  · rw [step, henter]
  · have hends : o.endsClause = true := by
      rw [Lexeme.endsClause, ho]
      exact decide_eq_true (by decide)
    rw [step, inClause_eq, if_pos (.inr hends), henter]

/-- Behind a word that a clause took, the literal is passed over. -/
theorem Passing.run_call (hs : s.Passing) (h : CallTail o q c gap₁ gap₂ gap₃ body)
    (ls : List Lexeme) : s.run (gap₁ ++ o :: (gap₂ ++ q :: ls)) = code.run ls := by
  obtain ⟨t, ht, hrun⟩ := hs.run_trivia h.trivia₁ (o :: (gap₂ ++ q :: ls))
  have hgap (l : Lexeme) (hl : l ∈ gap₂) : code.step l = (code, none) := by
    rw [step, enter_of_isTrivia (h.trivia₂ l hl)]
  have hliteral : code.step q = (code, none) := by
    rw [step, enter_of_not_word]
    intro w hw
    have hbody := h.literal
    rw [hw] at hbody
    cases hbody
  rw [hrun, run, ht.step_open h.opened, run_append_of_step_eq hgap, run, hliteral]
  rfl

end Tails

end Stage

/-! ## Calls in a text -/

/-- A call of `require` as it is written in a text: the word stands for itself in code, and
behind it come a parenthesis, a closed literal in single or double quotes, and another
parenthesis or a comma, with trivia in between. -/
structure RequireCall (source : String) where
  /-- the text before the word -/
  before : List Char
  /-- the text behind the word -/
  behind : List Char
  /-- the word stands in the text -/
  text_eq : source.toList = before ++ "require".toList ++ behind
  /-- it is in no comment and in no literal -/
  codeAt : CodeAt source.toList before
  /-- nothing of a word and no dot comes before it -/
  before_clear : ∀ c ∈ before.getLast?, isWordChar c = false ∧ c ≠ '.'
  /-- nothing of a word comes behind it -/
  behind_clear : ∀ c ∈ behind.head?, isWordChar c = false
  /-- between the word and the parenthesis -/
  gap₁ : List Token
  /-- between the parenthesis and the literal -/
  gap₂ : List Token
  /-- between the literal and the end of the call -/
  gap₃ : List Token
  /-- the quote of the literal -/
  quote : Char
  /-- the text between the quotes -/
  body : List Char
  /-- the end of the call -/
  close : Char
  /-- everything behind -/
  rest : List Token
  /-- what comes behind the word -/
  tokens_behind : tokens behind
    = gap₁ ++ .mark '(' :: (gap₂ ++ .literal quote body true :: (gap₃ ++ .mark close :: rest))
  /-- there is nothing but trivia in between -/
  trivia : ∀ t ∈ gap₁ ++ gap₂ ++ gap₃, t.isTrivia = true
  /-- the literal is no template -/
  quote_ne : quote ≠ '\x60'
  /-- the literal is the whole argument -/
  close_eq : close = ')' ∨ close = ','

namespace RequireCall

variable {source : String} (call : RequireCall source)

/-- The text before the literal. -/
def opening : List Char :=
  call.before ++ "require".toList ++ (call.gap₁ ++ .mark '(' :: call.gap₂).flatMap Token.text

/-- What is referred to: the text between the quotes, in its place. -/
def reference : Reference where
  raw := String.ofList call.body
  kind := .require
  line := lineBehind (call.opening.count '\n')
  start := byteLength call.opening + 1
  stop := byteLength call.opening + 1 + byteLength call.body

/-- The word stands inside a clause. -/
def InsideClause : Prop :=
  ∃ ts us, tokens source.toList = ts ++ us ∧ ts.flatMap Token.text = call.before ∧
    OpenClause (lexemes .start ts)

/-- The word is a token of the text. -/
theorem exists_tokens : ∃ ts, tokens source.toList
      = ts ++ .word "require".toList :: tokens call.behind ∧
    ts.flatMap Token.text = call.before := by
  have hword : "require".toList.all isWordChar = true := by decide +kernel
  exact exists_word_of_codeAt call.text_eq call.codeAt (by decide +kernel)
    (List.all_eq_true.1 hword) (fun c hc => (call.before_clear c hc).1) call.behind_clear

theorem insideClause_iff {ts us : List Token} (htokens : tokens source.toList = ts ++ us)
    (hbefore : ts.flatMap Token.text = call.before) :
    call.InsideClause ↔ OpenClause (lexemes .start ts) := by
  constructor
  · rintro ⟨vs, ws, hvs, hv, hopen⟩
    rw [eq_of_tokens_eq_append htokens hvs (hbefore.trans hv.symm)]
    exact hopen
  · exact fun hopen => ⟨ts, us, htokens, hbefore, hopen⟩

/-- The tokens before the literal are the text before it. -/
theorem flatMap_text_eq_opening {ts : List Token} (hbefore : ts.flatMap Token.text = call.before) :
    (ts ++ .word "require".toList :: (call.gap₁ ++ .mark '(' :: call.gap₂)).flatMap Token.text
      = call.opening := by
  rw [opening, List.flatMap_append, List.flatMap_cons, hbefore, List.append_assoc]
  rfl

/-- What comes behind the word, as lexemes. -/
theorem exists_callTail (p : Place) : ∃ o q c gap₁ gap₂ gap₃ ls,
    Stage.CallTail o q c gap₁ gap₂ gap₃ call.body ∧
      lexemes p (tokens call.behind) = gap₁ ++ o :: (gap₂ ++ q :: (gap₃ ++ c :: ls)) ∧
      q.place = p.afterAll (call.gap₁ ++ .mark '(' :: call.gap₂) ∧
      ∀ l ∈ gap₃ ++ c :: ls, q.place.offset + q.size ≤ l.place.offset := by
  have htrivia (p : Place) {gap : List Token} (hgap : ∀ t ∈ gap, t.isTrivia = true) :
      ∀ l ∈ lexemes p gap, l.isTrivia = true := by
    intro l hl
    refine hgap l.token ?_
    rw [← map_token_lexemes p gap]
    exact List.mem_map_of_mem hl
  have hgaps := call.trivia
  simp only [List.mem_append, or_imp, forall_and] at hgaps
  obtain ⟨⟨hgap₁, hgap₂⟩, hgap₃⟩ := hgaps
  let o : Lexeme := ⟨.mark '(', p.afterAll call.gap₁⟩
  let q : Lexeme := ⟨.literal call.quote call.body true,
    (o.place.after o.token).afterAll call.gap₂⟩
  let c : Lexeme := ⟨.mark call.close, (q.place.after q.token).afterAll call.gap₃⟩
  refine ⟨o, q, c, lexemes p call.gap₁, lexemes (o.place.after o.token) call.gap₂,
    lexemes (q.place.after q.token) call.gap₃, lexemes (c.place.after c.token) call.rest,
    ⟨rfl, ?_, ?_, htrivia _ hgap₁, htrivia _ hgap₂, htrivia _ hgap₃⟩, ?_, ?_, ?_⟩
  · exact if_neg call.quote_ne
  · rcases call.close_eq with h | h
    · exact .inl (congrArg Token.mark h)
    · exact .inr (congrArg Token.mark h)
  · rw [call.tokens_behind, lexemes_append, lexemes, lexemes_append, lexemes, lexemes_append,
      lexemes]
  · exact (afterAll_append p call.gap₁ (.mark '(' :: call.gap₂)).symm
  · intro l hl
    have hmem : l ∈ lexemes (q.place.after q.token)
        (call.gap₃ ++ .mark call.close :: call.rest) := by
      rw [lexemes_append, lexemes]
      exact hl
    exact (offset_le_of_mem_lexemes hmem).1

/-- The literal of the call makes its reference. -/
theorem refer_eq_reference {ts : List Token} (hbefore : ts.flatMap Token.text = call.before)
    {q : Lexeme} (hq : q.place = Place.start.afterAll
      (ts ++ .word "require".toList :: (call.gap₁ ++ .mark '(' :: call.gap₂))) :
    Stage.refer .require q call.body = call.reference := by
  obtain ⟨hoffset, hline⟩ := afterAll_eq Place.start
    (ts ++ .word "require".toList :: (call.gap₁ ++ .mark '(' :: call.gap₂))
  rw [call.flatMap_text_eq_opening hbefore, ← hq] at hoffset hline
  rw [Stage.refer, reference, hoffset, hline, Place.start, Nat.zero_add, lineBehind]

/-- **A call is found exactly when it stands in no clause**, whatever else comes before. -/
theorem reference_mem_iff : call.reference ∈ references source ↔ ¬call.InsideClause := by
  obtain ⟨ts, htokens, hbefore⟩ := call.exists_tokens
  let w : Lexeme := ⟨.word "require".toList, Place.start.afterAll ts⟩
  obtain ⟨o, q, c, gap₁, gap₂, gap₃, ls, htail, hlexemes, hplace, hbehind⟩ :=
    call.exists_callTail (w.place.after w.token)
  have hq : q.place = Place.start.afterAll
      (ts ++ .word "require".toList :: (call.gap₁ ++ .mark '(' :: call.gap₂)) := by
    rw [afterAll_append]
    exact hplace
  have hw : w.isKeyword "require" = true := by
    refine Lexeme.isKeyword_iff.2 ⟨afterDot_afterAll_start ?_, rfl⟩
    rw [hbefore]
    exact fun hdot => (call.before_clear '.' hdot).2 rfl
  have hreferences : references source
      = Stage.code.run (lexemes .start ts)
        ++ (Stage.code.atEnd (lexemes .start ts)).run
          (w :: (gap₁ ++ o :: (gap₂ ++ q :: (gap₃ ++ c :: ls)))) := by
    rw [references, htokens, lexemes_append, lexemes, hlexemes, Stage.run_append]
  have hopen := Stage.budget_atEnd_pos_iff (lexemes .start ts)
  rw [call.insideClause_iff htokens hbefore, ← hopen, Nat.not_lt, Nat.le_zero]
  obtain ⟨hcalled, hpassed⟩ := Stage.step_require hw (Stage.code.atEnd (lexemes .start ts))
  constructor
  · -- in a clause the word is lost, and no other lexeme makes the reference of the literal
    intro hmem
    by_contra hne
    obtain ⟨t, ht, hstep⟩ := hpassed hne
    rw [hreferences, Stage.run, hstep, ht.run_call htail] at hmem
    have hstart : call.reference.start = q.place.offset + 1 := by
      rw [← call.refer_eq_reference hbefore hq]
      rfl
    have hts : (Place.start.afterAll ts).offset ≤ q.place.offset := by
      rw [hq, afterAll_append, (afterAll_eq _ (.word "require".toList :: _)).1]
      exact Nat.le_add_right _ _
    rcases List.mem_append.1 hmem with h | h
    · refine Stage.not_mem_run_before hstart (fun l hl => ?_) h
      exact Nat.le_trans (offset_le_of_mem_lexemes hl).2 hts
    · exact Stage.not_mem_run_behind hstart (Stage.size_pos_of_stringBody? htail.literal)
        hbehind h
  · intro hzero
    rw [hreferences, Stage.run, hcalled hzero, Stage.run_called htail,
      call.refer_eq_reference hbefore hq]
    simp

/-- The call in `export default require('x')`. -/
def defaultExport : RequireCall "export default require('x')" where
  before := "export default ".toList
  behind := "('x')".toList
  text_eq := by decide +kernel
  codeAt := ⟨[.word "export".toList, .blank ' ', .word "default".toList, .blank ' '],
    .word "require".toList, tokens "('x')".toList, [], "require".toList,
    by decide +kernel, rfl, rfl, by decide +kernel, by decide +kernel⟩
  before_clear := by
    have hlast : "export default ".toList.getLast? = some ' ' := by decide +kernel
    rw [hlast]
    rintro c ⟨⟩
    decide
  behind_clear := by
    have hhead : "('x')".toList.head? = some '(' := by decide +kernel
    rw [hhead]
    rintro c ⟨⟩
    decide
  gap₁ := []
  gap₂ := []
  gap₃ := []
  quote := '\x27'
  body := ['x']
  close := ')'
  rest := []
  tokens_behind := by decide +kernel
  trivia := by decide
  quote_ne := by decide
  close_eq := .inl rfl

/-- Not every call is found: the clause that `export` begins takes the word. -/
theorem exists_reference_not_mem :
    ∃ call : RequireCall "export default require('x')",
      call.reference ∉ references "export default require('x')" :=
  ⟨defaultExport, by decide +kernel⟩

end RequireCall

end ModuleLookup
