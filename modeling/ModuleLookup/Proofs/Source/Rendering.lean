import ModuleLookup.Proofs.Source.RequireCall
import ModuleLookup.Proofs.Source.Statement

/-!
# Written references are found

Reading the text of statements gives the statements back: one reference for each, in order, in
its place. Behind every statement the machine is in ordinary code again, so what it reads next
does not depend on what came before.

* `Stage.run_sought`, `Stage.run_names`, `Stage.run_imported` — through a clause to its
  literal.
* `run_call`, `run_bare`, `run_clause` — the three ways to a literal behind a keyword.
* `Statement.run` — one statement; `run_statements` — all of them; `references_rendered` — the
  references of the text.
-/

namespace ModuleLookup

/-! ## How it is read -/

namespace Stage

section Runs

variable {kind : Reference.Kind} {n : Nat} {q f : Lexeme} {body : List Char}
  {gap between : List Lexeme}

theorem run_code_cons (l : Lexeme) (ls : List Lexeme) : code.run (l :: ls) = (enter l).run ls :=
  rfl

/-- Behind `from` the literal completes the reference, whatever the clause may still take. -/
theorem run_sought (hgap : ∀ l ∈ gap, l.isTrivia = true)
    (hq : stringBody? q.token = some (body, true)) (ls : List Lexeme) :
    (sought kind n).run (gap ++ q :: ls) = refer kind q body :: code.run ls := by
  induction gap generalizing n with
  | nil =>
    have hstep : (sought kind n).step q = (code, some (refer kind q body)) := by
      rw [step, isTrivia_of_stringBody? hq, hq]
      rfl
    rw [List.nil_append, run, hstep]
    rfl
  | cons l gap ih =>
    have hstep : (sought kind n).step l = (sought kind (n - l.size), none) := by
      rw [step, if_pos (hgap l List.mem_cons_self)]
    rw [List.cons_append, run, hstep, ih fun m hm => hgap m (List.mem_cons_of_mem l hm)]
    rfl

/-- A clause that is short enough is read up to its `from`. -/
theorem run_names (kind : Reference.Kind)
    (hbetween : ∀ l ∈ between, l.endsClause = false ∧ l.isKeyword "from" = false)
    (hf : f.isKeyword "from" = true) (hn : totalSize between < n) (ls : List Lexeme) :
    ∃ m, (clause kind n).run (between ++ f :: ls) = (sought kind m).run ls := by
  have hends := Lexeme.endsClause_of_isKeyword hf (by decide) (by decide)
  induction between generalizing n with
  | nil =>
    have hstep : inClause kind n f = sought kind (n - f.size) := by
      rw [inClause_eq, hends, if_neg (by simpa using Nat.ne_zero_of_lt hn),
        if_pos hf]
    exact ⟨n - f.size, by rw [List.nil_append, run, step, hstep]; rfl⟩
  | cons l between ih =>
    obtain ⟨hends, hfrom⟩ := hbetween l List.mem_cons_self
    rw [totalSize] at hn
    have hstep : inClause kind n l = clause kind (n - l.size) := by
      rw [inClause_eq, hends, if_neg (by simpa using Nat.ne_zero_of_lt hn), hfrom]
      rfl
    obtain ⟨m, hm⟩ := ih (fun k hk => hbetween k (List.mem_cons_of_mem l hk))
      (n := n - l.size) (by omega)
    exact ⟨m, by rw [List.cons_append, run, step, hstep, ← hm]; rfl⟩

/-- Behind `import` a clause is read like any other, once it has begun. -/
theorem run_imported (hbetween : ∀ l ∈ between, l.endsClause = false ∧
      l.isKeyword "from" = false)
    (hf : f.isKeyword "from" = true) (hsize : totalSize between < clauseLimit)
    (ls : List Lexeme) :
    ∃ m, imported.run (between ++ f :: ls) = (sought .importFrom m).run ls := by
  induction between with
  | nil =>
    have hends := Lexeme.endsClause_of_isKeyword hf (by decide) (by decide)
    have hrun : imported.run (f :: ls) = (clause .importFrom clauseLimit).run (f :: ls) := by
      rw [run, run, step_imported hends (Lexeme.isTrivia_of_isKeyword hf), step]
    obtain ⟨m, hm⟩ := run_names .importFrom hbetween hf hsize ls
    exact ⟨m, hrun.trans hm⟩
  | cons l between ih =>
    cases ht : l.isTrivia with
    | true =>
      have hstep : imported.step l = (imported, none) := by
        rw [step, if_pos ht]
      rw [totalSize] at hsize
      obtain ⟨m, hm⟩ := ih (fun k hk => hbetween k (List.mem_cons_of_mem l hk)) (by omega)
      exact ⟨m, by rw [List.cons_append, run, hstep, ← hm]; rfl⟩
    | false =>
      obtain ⟨hends, -⟩ := hbetween l List.mem_cons_self
      obtain ⟨m, hm⟩ := run_names .importFrom hbetween hf hsize ls
      refine ⟨m, ?_⟩
      rw [← hm, List.cons_append, run, run, step_imported hends ht, step]

end Runs

end Stage

/-! ### Places -/

theorem isTrivia_of_mem_lexemes_gap {p : Place} {gap : List Spacer} {l : Lexeme}
    (hl : l ∈ lexemes p (gapTokens gap)) : l.isTrivia = true := by
  have hmem : l.token ∈ gapTokens gap := by
    rw [← map_token_lexemes p (gapTokens gap)]
    exact List.mem_map_of_mem hl
  exact isTrivia_of_mem_gapTokens hmem

/-- A gap does not end with a dot. -/
theorem dot_not_mem_gapTokens (gap : List Spacer) : .mark '.' ∉ gapTokens gap := by
  intro hmem
  have htrivia := isTrivia_of_mem_gapTokens hmem
  cases htrivia

theorem totalSize_lexemes (p : Place) (ts : List Token) :
    totalSize (lexemes p ts) = byteLength (ts.flatMap Token.text) := by
  induction ts generalizing p with
  | nil => rfl
  | cons t ts ih =>
    rw [lexemes, totalSize, ih, List.flatMap_cons, byteLength_append]
    rfl

/-- A gap in ordinary code is passed over. -/
theorem run_gap (p : Place) (gap : List Spacer) (ls : List Lexeme) :
    Stage.code.run (lexemes p (gapTokens gap) ++ ls) = Stage.code.run ls := by
  refine Stage.run_append_of_step_eq (fun l hl => ?_) ls
  rw [Stage.step, Stage.enter_of_isTrivia (isTrivia_of_mem_lexemes_gap hl)]

/-! ### Forms -/

section Forms

variable (p : Place) (gap : List Spacer) (q : Quotation) (ls : List Lexeme)

/-- What stands behind the parenthesis of a call. -/
theorem run_call (kind : Reference.Kind) (close : List Spacer) :
    (Stage.argument kind).run
        (lexemes p (gapTokens gap ++ q.token :: (gapTokens close ++ [.mark ')'])) ++ ls)
      = Stage.refer kind ⟨q.token, p.afterAll (gapTokens gap)⟩ q.body :: Stage.code.run ls := by
  let literal : Lexeme := ⟨q.token, p.afterAll (gapTokens gap)⟩
  let paren : Lexeme := ⟨.mark ')', (literal.place.after q.token).afterAll (gapTokens close)⟩
  have htail : Stage.CallTail ⟨.mark '(', p⟩ literal paren [] (lexemes p (gapTokens gap))
      (lexemes (literal.place.after q.token) (gapTokens close)) q.body :=
    ⟨rfl, q.stringBody?_token, .inl rfl, fun _ h => absurd h List.not_mem_nil,
      fun _ h => isTrivia_of_mem_lexemes_gap h, fun _ h => isTrivia_of_mem_lexemes_gap h⟩
  rw [lexemes_append, lexemes, lexemes_append, List.append_assoc, List.cons_append,
    List.append_assoc]
  exact Stage.run_argument htail kind ls

/-- What stands behind `import` without a clause. -/
theorem run_bare :
    Stage.imported.run (lexemes p (gapTokens gap ++ [q.token]) ++ ls)
      = Stage.refer .sideEffect ⟨q.token, p.afterAll (gapTokens gap)⟩ q.body
        :: Stage.code.run ls := by
  have hgap (l : Lexeme) (hl : l ∈ lexemes p (gapTokens gap)) :
      Stage.imported.step l = (.imported, none) := by
    rw [Stage.step, if_pos (isTrivia_of_mem_lexemes_gap hl)]
  rw [lexemes_append, List.append_assoc, Stage.run_append_of_step_eq hgap]
  have hbody : Stage.stringBody? q.token = some (q.body, true) := q.stringBody?_token
  have hliteral : Stage.imported.step ⟨q.token, p.afterAll (gapTokens gap)⟩
      = (.code, some (Stage.refer .sideEffect ⟨q.token, p.afterAll (gapTokens gap)⟩ q.body)) := by
    rw [Stage.step, Stage.isTrivia_of_stringBody? hbody, hbody]
    rfl
  rw [lexemes, lexemes, List.singleton_append, Stage.run, hliteral]
  rfl

/-- What stands behind the keyword of a clause. -/
theorem run_clause {kind : Reference.Kind} {s : Stage}
    (hs : s = .imported ∧ kind = .importFrom ∨ s = .clause kind clauseLimit)
    (hp : p.afterDot = false) (names : Names) :
    s.run (lexemes p (tokens names.text ++ .word "from".toList :: (gapTokens gap ++ [q.token]))
        ++ ls)
      = Stage.refer kind ⟨q.token, p.afterAll
          (tokens names.text ++ .word "from".toList :: gapTokens gap)⟩ q.body
        :: Stage.code.run ls := by
  let f : Lexeme := ⟨.word "from".toList, p.afterAll (tokens names.text)⟩
  have hf : f.isKeyword "from" = true :=
    Lexeme.isKeyword_iff.2 ⟨afterDot_afterAll hp names.dot_not_mem, rfl⟩
  have hsize : totalSize (lexemes p (tokens names.text)) < clauseLimit := by
    rw [totalSize_lexemes, tokens_text]
    exact names.short
  have hnames (l : Lexeme) (hl : l ∈ lexemes p (tokens names.text)) :=
    names.lexeme_of_mem hl
  -- both keywords come to the literal behind `from` with some bytes left
  have hsought (ms : List Lexeme) : ∃ m, s.run (lexemes p (tokens names.text) ++ f :: ms)
      = (Stage.sought kind m).run ms := by
    rcases hs with ⟨rfl, rfl⟩ | rfl
    · exact Stage.run_imported hnames hf hsize ms
    · exact Stage.run_names kind hnames hf hsize ms
  rw [lexemes_append, lexemes, lexemes_append, List.append_assoc, List.cons_append,
    List.append_assoc, afterAll_append]
  obtain ⟨m, hm⟩ := hsought (lexemes (f.place.after f.token) (gapTokens gap)
    ++ (lexemes ((f.place.after f.token).afterAll (gapTokens gap)) [q.token] ++ ls))
  refine hm.trans (Stage.run_sought ?_ q.stringBody?_token ls)
  exact fun l hl => isTrivia_of_mem_lexemes_gap hl

end Forms

namespace Statement

/-- **A statement makes its reference**, and leaves nothing open. -/
theorem run (s : Statement) {p : Place} (hp : p.afterDot = false) (ls : List Lexeme) :
    Stage.code.run (lexemes p s.tokens ++ ls)
      = Stage.refer s.kind ⟨s.quotation.token, p.afterAll s.openingTokens⟩ s.quotation.body
        :: Stage.code.run ls := by
  have hword (keyword : String) :
      (Lexeme.mk (.word keyword.toList) p).isKeyword keyword = true :=
    Lexeme.isKeyword_iff.2 ⟨hp, rfl⟩
  cases s with
  | require gap q close =>
    rw [tokens, openingTokens, closingTokens, List.cons_append, List.cons_append, lexemes,
      lexemes, List.cons_append, List.cons_append, Stage.run_code_cons,
      Stage.enter_of_require (hword "require"), Stage.run]
    exact run_call _ gap q ls .require close
  | dynamic gap q close =>
    rw [tokens, openingTokens, closingTokens, List.cons_append, List.cons_append, lexemes,
      lexemes, List.cons_append, List.cons_append, Stage.run_code_cons,
      Stage.enter_of_import (hword "import"), Stage.run]
    exact run_call _ gap q ls .dynamic close
  | sideEffect gap q =>
    rw [tokens, openingTokens, closingTokens, List.cons_append, lexemes, List.cons_append,
      Stage.run_code_cons, Stage.enter_of_import (hword "import")]
    exact run_bare _ gap q ls
  | importFrom names gap q =>
    rw [tokens, openingTokens, closingTokens, List.cons_append, List.append_assoc,
      List.cons_append, lexemes, List.cons_append, Stage.run_code_cons,
      Stage.enter_of_import (hword "import")]
    exact run_clause _ gap q ls (.inl ⟨rfl, rfl⟩) rfl names
  | exportFrom names gap q =>
    rw [tokens, openingTokens, closingTokens, List.cons_append, List.append_assoc,
      List.cons_append, lexemes, List.cons_append, Stage.run_code_cons,
      Stage.enter_of_export (hword "export")]
    exact run_clause _ gap q ls (.inr rfl) rfl names

/-- The literal of a statement is where the reference says. -/
theorem refer_eq_reference (s : Statement) {p : Place} {before : List Char}
    (hoffset : p.offset = byteLength before) (hline : p.line = lineBehind (before.count '\n')) :
    Stage.refer s.kind ⟨s.quotation.token, p.afterAll s.openingTokens⟩ s.quotation.body
      = s.reference before := by
  obtain ⟨ho, hl⟩ := afterAll_eq p s.openingTokens
  rw [flatMap_text_openingTokens] at ho hl
  rw [Stage.refer, reference, ho, hl, hoffset, hline, byteLength_append, List.count_append,
    lineBehind_add]

end Statement

/-! ## All statements -/

/-- The tokens of statements. -/
def statementsTokens (ss : List (Statement × List Spacer)) : List Token :=
  ss.flatMap fun s => s.1.tokens ++ .mark ';' :: gapTokens s.2

theorem pieces_line (s : Statement) (gap : List Spacer) :
    Pieces (s.text ++ ';' :: gapText gap) (s.tokens ++ .mark ';' :: gapTokens gap) :=
  s.pieces.append ((pieces_mark (by decide)).append (pieces_gap gap))

theorem pieces_statements (ss : List (Statement × List Spacer)) :
    Pieces (statementsText ss) (statementsTokens ss) := by
  induction ss with
  | nil => exact .nil
  | cons s ss ih => exact (pieces_line s.1 s.2).append ih

/-- A statement with what is behind it. -/
theorem run_line (s : Statement) (gap : List Spacer) {p : Place} {before : List Char}
    (hp : p.afterDot = false) (hoffset : p.offset = byteLength before)
    (hline : p.line = lineBehind (before.count '\n')) (ls : List Lexeme) :
    Stage.code.run (lexemes p (s.tokens ++ .mark ';' :: gapTokens gap) ++ ls)
      = s.reference before :: Stage.code.run ls := by
  have hsemicolon (p : Place) : Stage.code.step ⟨.mark ';', p⟩ = (.code, none) := by
    rw [Stage.step, Stage.enter_of_not_word fun w hw => by cases hw]
  rw [lexemes_append, List.append_assoc, s.run hp, s.refer_eq_reference hoffset hline, lexemes,
    List.cons_append, Stage.run, hsemicolon, run_gap]
  rfl

/-- The references of statements, from any place in ordinary code on. -/
theorem run_statements (ss : List (Statement × List Spacer)) {p : Place} {before : List Char}
    (hp : p.afterDot = false) (hoffset : p.offset = byteLength before)
    (hline : p.line = lineBehind (before.count '\n')) :
    Stage.code.run (lexemes p (statementsTokens ss)) = statementsReferences before ss := by
  induction ss generalizing p before with
  | nil => rfl
  | cons s ss ih =>
    obtain ⟨s, gap⟩ := s
    obtain ⟨ho, hl⟩ := afterAll_eq p (s.tokens ++ .mark ';' :: gapTokens gap)
    rw [(pieces_line s gap).flatMap_text] at ho hl
    rw [statementsTokens, List.flatMap_cons, lexemes_append, run_line s gap hp hoffset hline]
    refine congrArg _ (ih ?_ ?_ ?_)
    · rw [afterAll_append]
      exact afterDot_afterAll (p := (p.afterAll s.tokens).after (.mark ';')) rfl
        (dot_not_mem_gapTokens gap)
    · rw [ho, hoffset, ← byteLength_append]
    · rw [hl, hline, ← lineBehind_add, ← List.count_append]

/-- **Written references are found**: one for each statement, in order, in its place. -/
theorem references_rendered (gap : List Spacer) (ss : List (Statement × List Spacer)) :
    references (String.ofList (gapText gap ++ statementsText ss))
      = statementsReferences (gapText gap) ss := by
  have hpieces := (pieces_gap gap).append (pieces_statements ss)
  obtain ⟨ho, hl⟩ := afterAll_eq .start (gapTokens gap)
  rw [(pieces_gap gap).flatMap_text] at ho hl
  rw [references, String.toList_ofList, hpieces.tokens_eq, lexemes_append, run_gap]
  refine run_statements ss (afterDot_afterAll rfl (dot_not_mem_gapTokens gap)) ?_ hl
  rw [ho, Place.start, Nat.zero_add]

end ModuleLookup
