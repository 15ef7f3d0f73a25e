import ModuleLookup.Proofs.Source.Clause

/-!
# Where references come from

What the machine finds is always written in the source: a closed literal in single or double
quotes, with the words and marks of its form around it. The machine remembers only a stage,
and the stage says which part of a form has just been read.

* `Behind` — the last lexeme that is no trivia; `InCall`, `InClause`, `BehindFrom` — the parts
  of a form, built from it; `Written` — a whole form around a literal.
* `Stage.Explained` — what a stage says about the lexemes read so far; `Explained.step` keeps
  it and accounts for a reference that is completed, `exists_cites_of_mem_run` takes a run.
* `Lexeme.isKeyword_iff_of_lexemes_eq` — where a keyword stands, in terms of the text.
* `exists_written_of_mem_references` — the forms in the text of a source.
-/

namespace ModuleLookup

/-! ## Parts of forms -/

/-- The last lexeme that is no trivia, together with what is before it. -/
def Behind (P : List Lexeme → Lexeme → Prop) (ls : List Lexeme) : Prop :=
  ∃ before l gap, ls = before ++ l :: gap ∧ P before l ∧ ∀ g ∈ gap, g.isTrivia = true

/-- The keyword with which a reference begins. -/
def Reference.Kind.keyword : Reference.Kind → String
  | require => "require"
  | importFrom => "import"
  | sideEffect => "import"
  | dynamic => "import"
  | exportFrom => "export"

/-- Whether a reference is written as a call. -/
def Reference.Kind.isCall : Reference.Kind → Bool
  | require | dynamic => true
  | importFrom | sideEffect | exportFrom => false

/-- Whether a reference is written with a clause and `from`. -/
def Reference.Kind.hasClause : Reference.Kind → Bool
  | importFrom | exportFrom => true
  | require | sideEffect | dynamic => false

/-- The lexemes end behind a keyword. -/
def BehindKeyword (word : String) : List Lexeme → Prop :=
  Behind fun _ k => k.isKeyword word = true

/-- The lexemes end behind the parenthesis that opens a call. -/
def InCall (kind : Reference.Kind) : List Lexeme → Prop :=
  Behind fun before o => o.token = .mark '(' ∧ BehindKeyword kind.keyword before

/-- The lexemes end inside a clause: nothing that ends it has come since its keyword. -/
def InClause (kind : Reference.Kind) (ls : List Lexeme) : Prop :=
  ∃ before k between, ls = before ++ k :: between ∧ k.isKeyword kind.keyword = true ∧
    ∀ l ∈ between, l.endsClause = false

/-- The lexemes end behind the `from` of a clause. -/
def BehindFrom (kind : Reference.Kind) : List Lexeme → Prop :=
  Behind fun before f => f.isKeyword "from" = true ∧ InClause kind before

/-- The lexemes go on with the end of an argument. -/
def EndsArgument (ls : List Lexeme) : Prop :=
  ∃ gap c rest, ls = gap ++ c :: rest ∧ (c.token = .mark ')' ∨ c.token = .mark ',') ∧
    ∀ g ∈ gap, g.isTrivia = true

/-- How a reference is written, as the lexemes before and behind its literal: in a call, right
behind `import`, or behind the `from` of a clause. -/
def Written (kind : Reference.Kind) (before after : List Lexeme) : Prop :=
  if kind.isCall then InCall kind before ∧ EndsArgument after
  else if kind.hasClause then BehindFrom kind before
  else BehindKeyword kind.keyword before

/-- A literal between some lexemes makes a reference. -/
def Cites (r : Reference) (before : List Lexeme) (q : Lexeme) (after : List Lexeme) : Prop :=
  ∃ body, Stage.stringBody? q.token = some (body, true) ∧ r = Stage.refer r.kind q body ∧
    Written r.kind before after

section Parts

variable {P : List Lexeme → Lexeme → Prop} {kind : Reference.Kind} {ls ms : List Lexeme}
  {l : Lexeme}

theorem Behind.intro (h : P ls l) : Behind P (ls ++ [l]) :=
  ⟨ls, l, [], rfl, h, fun _ hg => absurd hg List.not_mem_nil⟩

/-- Trivia change nothing. -/
theorem Behind.trivia (h : Behind P ls) (hl : l.isTrivia = true) : Behind P (ls ++ [l]) := by
  obtain ⟨before, k, gap, rfl, hk, hgap⟩ := h
  refine ⟨before, k, gap ++ [l], by simp, hk, ?_⟩
  intro g hg
  rcases List.mem_append.1 hg with hg | hg
  · exact hgap g hg
  · rw [List.mem_singleton.1 hg]
    exact hl

/-- A clause begins right behind its keyword. -/
theorem InClause.of_behindKeyword (h : BehindKeyword kind.keyword ls) : InClause kind ls := by
  obtain ⟨before, k, gap, rfl, hk, hgap⟩ := h
  exact ⟨before, k, gap, rfl, hk, fun l hl => Lexeme.endsClause_of_isTrivia (hgap l hl)⟩

/-- A clause goes on until something ends it. -/
theorem InClause.append (h : InClause kind ls) (hms : ∀ l ∈ ms, l.endsClause = false) :
    InClause kind (ls ++ ms) := by
  obtain ⟨before, k, between, rfl, hk, hbetween⟩ := h
  refine ⟨before, k, between ++ ms, by simp, hk, ?_⟩
  intro l hl
  rcases List.mem_append.1 hl with hl | hl
  · exact hbetween l hl
  · exact hms l hl

/-- Behind a `from` that no literal follows, the clause goes on. -/
theorem InClause.of_behindFrom (h : BehindFrom kind ls) : InClause kind ls := by
  obtain ⟨before, f, gap, rfl, ⟨hf, hclause⟩, hgap⟩ := h
  refine hclause.append ?_
  intro l hl
  rcases List.mem_cons.1 hl with rfl | hl
  · exact Lexeme.endsClause_of_isKeyword hf (by decide) (by decide)
  · exact Lexeme.endsClause_of_isTrivia (hgap l hl)

/-- More lexemes behind a literal do not matter. -/
theorem Cites.append {r : Reference} {before after : List Lexeme} {q : Lexeme}
    (h : Cites r before q after) (ms : List Lexeme) : Cites r before q (after ++ ms) := by
  obtain ⟨body, hbody, hr, hwritten⟩ := h
  refine ⟨body, hbody, hr, ?_⟩
  rw [Written] at hwritten ⊢
  split
  · next hcall =>
    rw [if_pos hcall] at hwritten
    obtain ⟨hin, gap, c, rest, rfl, hc, hgap⟩ := hwritten
    exact ⟨hin, gap, c, rest ++ ms, by simp, hc, hgap⟩
  · next hcall =>
    rw [if_neg hcall] at hwritten
    exact hwritten

end Parts

/-! ## What a stage says -/

namespace Stage

/-- What a stage says about the lexemes read so far. -/
def Explained : Stage → List Lexeme → Prop
  | code, _ => True
  | called, ls => BehindKeyword "require" ls
  | argument kind, ls => kind.isCall = true ∧ InCall kind ls
  | closing r, ls => r.kind.isCall = true ∧ Behind (fun before q => InCall r.kind before ∧
      ∃ body, stringBody? q.token = some (body, true) ∧ r = refer r.kind q body) ls
  | imported, ls => BehindKeyword "import" ls
  | clause kind _, ls => kind.hasClause = true ∧ InClause kind ls
  | sought kind _, ls => kind.hasClause = true ∧ BehindFrom kind ls

section Steps

variable {s : Stage} {ls : List Lexeme} {l : Lexeme} {kind : Reference.Kind}

theorem explained_enter (ls : List Lexeme) (l : Lexeme) : (enter l).Explained (ls ++ [l]) := by
  rw [enter]
  split
  · next h => exact Behind.intro h
  · split
    · next h => exact Behind.intro h
    · split
      · next h => exact ⟨rfl, ls, l, [], rfl, h, fun _ hm => absurd hm List.not_mem_nil⟩
      · trivial

theorem explained_inClause (n : Nat) (hkind : kind.hasClause = true) (h : InClause kind ls) :
    (inClause kind n l).Explained (ls ++ [l]) := by
  rw [inClause_eq]
  split
  · exact explained_enter ls l
  · next hon =>
    split
    · next hf => exact ⟨hkind, Behind.intro ⟨hf, h⟩⟩
    · refine ⟨hkind, h.append fun m hm => ?_⟩
      rw [List.mem_singleton.1 hm]
      exact Bool.eq_false_iff.2 fun he => hon (.inr he)

/-- A literal that completes a reference by itself. -/
theorem cites_refer {body : List Char} (hbody : stringBody? l.token = some (body, true))
    (hwritten : Written kind ls []) : Cites (refer kind l body) ls l [] :=
  ⟨body, hbody, rfl, hwritten⟩

/-- **One lexeme** keeps what the stage says, and accounts for the reference that it
completes. -/
theorem Explained.step (h : s.Explained ls) (l : Lexeme) :
    (s.step l).1.Explained (ls ++ [l]) ∧
      ∀ r, (s.step l).2 = some r →
        ∃ before q after, ls ++ [l] = before ++ q :: after ∧ Cites r before q after := by
  have henter := explained_enter ls l
  cases s with
  | code => exact ⟨henter, by simp [Stage.step]⟩
  | called =>
    rw [Stage.step]
    split
    · next ht => exact ⟨Behind.trivia h ht, by simp⟩
    · split
      · next ho => exact ⟨⟨rfl, Behind.intro ⟨ho, h⟩⟩, by simp⟩
      · exact ⟨henter, by simp⟩
  | argument kind =>
    obtain ⟨hkind, hcall⟩ := h
    rw [Stage.step]
    split
    · next ht => exact ⟨⟨hkind, Behind.trivia hcall ht⟩, by simp⟩
    · split
      · next body hbody =>
        exact ⟨⟨hkind, Behind.intro ⟨hcall, body, hbody, rfl⟩⟩, by simp⟩
      · exact ⟨henter, by simp⟩
  | closing found =>
    obtain ⟨hkind, hliteral⟩ := h
    rw [Stage.step]
    split
    · next ht => exact ⟨⟨hkind, Behind.trivia hliteral ht⟩, by simp⟩
    · split
      · next hc =>
        refine ⟨trivial, fun r hr => ?_⟩
        obtain rfl := Option.some.inj hr
        obtain ⟨before, q, gap, rfl, ⟨hcall, body, hbody, hfound⟩, hgap⟩ := hliteral
        refine ⟨before, q, gap ++ [l], by simp, body, hbody, hfound, ?_⟩
        rw [Written, if_pos hkind]
        exact ⟨hcall, gap, l, [], rfl, hc, hgap⟩
      · exact ⟨henter, by simp⟩
  | imported =>
    have hclause : InClause .importFrom ls := .of_behindKeyword h
    rw [Stage.step]
    split
    · next ht => exact ⟨Behind.trivia h ht, by simp⟩
    · split
      · next ho => exact ⟨⟨rfl, Behind.intro ⟨ho, h⟩⟩, by simp⟩
      · split
        · next body hbody =>
          refine ⟨trivial, fun r hr => ?_⟩
          obtain rfl := Option.some.inj hr
          exact ⟨ls, l, [], rfl, cites_refer hbody h⟩
        · exact ⟨trivial, by simp⟩
        · exact ⟨explained_inClause clauseLimit rfl hclause, by simp⟩
  | clause kind n => exact ⟨explained_inClause n h.1 h.2, by simp [Stage.step]⟩
  | sought kind n =>
    obtain ⟨hkind, hfrom⟩ := h
    rw [Stage.step]
    split
    · next ht => exact ⟨⟨hkind, Behind.trivia hfrom ht⟩, by simp⟩
    · split
      · next body hbody =>
        refine ⟨trivial, fun r hr => ?_⟩
        obtain rfl := Option.some.inj hr
        refine ⟨ls, l, [], rfl, cites_refer hbody ?_⟩
        cases kind with
        | importFrom | exportFrom => exact hfrom
        | require | sideEffect | dynamic => cases hkind
      · exact ⟨trivial, by simp⟩
      · exact ⟨explained_inClause n hkind (.of_behindFrom hfrom), by simp⟩

end Steps

/-- **A run**: every reference that is found is written among the lexemes. -/
theorem exists_cites_of_mem_run {s : Stage} {ls ms : List Lexeme} {r : Reference}
    (hs : s.Explained ls) (hr : r ∈ s.run ms) :
    ∃ before q after, ls ++ ms = before ++ q :: after ∧ Cites r before q after := by
  induction ms generalizing s ls with
  | nil => cases hr
  | cons l ms ih =>
    obtain ⟨hnext, hfound⟩ := hs.step l
    rw [List.append_cons]
    rcases List.mem_append.1 hr with hr | hr
    · obtain ⟨before, q, after, hsplit, hcites⟩ := hfound r (by simpa using hr)
      refine ⟨before, q, after ++ ms, ?_, hcites.append ms⟩
      rw [hsplit, List.append_assoc, List.cons_append]
    · exact ih hnext hr

end Stage

/-! ## In a text -/

/-- The text of some lexemes. -/
def lexemesText (ls : List Lexeme) : List Char :=
  ls.flatMap fun l => l.token.text

section Texts

variable {cs : List Char} {as bs : List Lexeme} {k : Lexeme}

theorem lexemesText_eq (ls : List Lexeme) :
    lexemesText ls = (ls.map Lexeme.token).flatMap Token.text := by
  rw [lexemesText, List.flatMap_map]

/-- Lexemes are tokens, each in its place. -/
theorem place_of_lexemes_eq {p : Place} {ts : List Token} (h : lexemes p ts = as ++ k :: bs) :
    ts = as.map Lexeme.token ++ k.token :: bs.map Lexeme.token ∧
      k.place = p.afterAll (as.map Lexeme.token) := by
  have hts := map_token_lexemes p ts
  rw [h, List.map_append, List.map_cons] at hts
  refine ⟨hts.symm, ?_⟩
  rw [← hts, lexemes_append, lexemes] at h
  have hlen : (lexemes p (as.map Lexeme.token)).length = as.length := by
    rw [← List.length_map (f := Lexeme.token), map_token_lexemes, List.length_map]
  have hcons := (List.append_inj h hlen).2
  rw [← (List.cons.inj hcons).1]

/-- A word stands as a keyword where no character of a word and no dot comes before it. No
character of a word comes behind it in any case. -/
theorem Lexeme.isKeyword_iff_of_lexemes_eq (h : lexemes .start (tokens cs) = as ++ k :: bs)
    (word : String) :
    k.isKeyword word = true ↔ k.token = .word word.toList ∧
      (∀ c ∈ (lexemesText as).getLast?, isWordChar c = false ∧ c ≠ '.') ∧
      ∀ c ∈ (lexemesText bs).head?, isWordChar c = false := by
  obtain ⟨htokens, hplace⟩ := place_of_lexemes_eq h
  rw [isKeyword_iff, lexemesText_eq, lexemesText_eq]
  constructor
  · rintro ⟨hdot, hword⟩
    rw [hword] at htokens
    refine ⟨hword, fun c hc => ?_, (fits_of_tokens_eq htokens).2⟩
    obtain ⟨hclear, hmark⟩ := clear_before_word htokens c hc
    refine ⟨hclear, ?_⟩
    rintro rfl
    -- the dot would be the last token before the word
    rw [hplace, afterDot_afterAll_of_getLast? (hmark rfl)] at hdot
    cases hdot
  · rintro ⟨hword, hclear, -⟩
    refine ⟨?_, hword⟩
    rw [hplace]
    exact afterDot_afterAll_start fun hdot => (hclear '.' hdot).2 rfl

end Texts

/-- **A reference is written in the source.** By the rules of lexing it is the inside of a
closed literal in single or double quotes, and around this token is the form of its kind; what
counts as a keyword there stands for itself in the text. -/
theorem exists_written_of_mem_references {source : String} {r : Reference}
    (h : r ∈ references source) :
    ∃ ts before q after quote body, Lexed source.toList ts ∧
      lexemes .start ts = before ++ q :: after ∧
      q.token = .literal quote body true ∧ (quote = '\x22' ∨ quote = '\x27') ∧
      source.toList = lexemesText before ++ quote :: (body ++ quote :: lexemesText after) ∧
      r = ⟨String.ofList body, r.kind, lineBehind ((lexemesText before).count '\n'),
        byteLength (lexemesText before) + 1,
        byteLength (lexemesText before) + 1 + byteLength body⟩ ∧
      Written r.kind before after ∧
      ∀ as k bs word, before ++ q :: after = as ++ k :: bs →
        (k.isKeyword word = true ↔ k.token = .word word.toList ∧
          (∀ c ∈ (lexemesText as).getLast?, isWordChar c = false ∧ c ≠ '.') ∧
          ∀ c ∈ (lexemesText bs).head?, isWordChar c = false) := by
  have hcode : Stage.code.Explained [] := trivial
  obtain ⟨before, q, after, hsplit, body, hbody, hr, hwritten⟩ :=
    Stage.exists_cites_of_mem_run hcode h
  rw [List.nil_append] at hsplit
  obtain ⟨htokens, hplace⟩ := place_of_lexemes_eq hsplit
  obtain ⟨quote, hne, hquote⟩ := Stage.stringBody?_eq_some_iff.1 hbody
  rw [hquote] at htokens
  refine ⟨tokens source.toList, before, q, after, quote, body, tokens_eq_iff_lexed.1 rfl,
    hsplit, hquote, ?_, ?_, ?_, hwritten, ?_⟩
  · have hq := isQuote_of_tokens_eq htokens
    simp only [isQuote, Bool.or_eq_true, beq_iff_eq] at hq
    exact hq.resolve_right hne
  · have htext := tokens_text source.toList
    rw [htokens, List.flatMap_append, List.flatMap_cons, ← lexemesText_eq,
      ← lexemesText_eq] at htext
    rw [← htext]
    simp [Token.text]
  · obtain ⟨hoffset, hline⟩ := afterAll_eq Place.start (before.map Lexeme.token)
    rw [← hplace, ← lexemesText_eq] at hoffset hline
    rw [hr, Stage.refer, hoffset, hline]
    simp [Place.start, lineBehind]
  · intro as k bs word hk
    rw [hk] at hsplit
    exact Lexeme.isKeyword_iff_of_lexemes_eq hsplit word

/-- Behind a first `from` that is no keyword of the clause, the second one counts. -/
theorem exists_written_importFrom :
    (⟨"x", .importFrom, 1, 18, 19⟩ : Reference) ∈ references "import from from 'x'" ∧
      ∃ ts before q after, Lexed "import from from 'x'".toList ts ∧
        lexemes .start ts = before ++ q :: after ∧ Written .importFrom before after := by
  have hmem : (⟨"x", .importFrom, 1, 18, 19⟩ : Reference) ∈ references "import from from 'x'" := by
    decide +kernel
  obtain ⟨ts, before, q, after, -, -, hlexed, hsplit, -, -, -, -, hwritten, -⟩ :=
    exists_written_of_mem_references hmem
  exact ⟨hmem, ts, before, q, after, hlexed, hsplit, hwritten⟩

end ModuleLookup
