import Mathlib.Data.List.Induction
import ModuleLookup.Proofs.Source.Tokens
import ModuleLookup.Source.Reference

/-!
# Clauses

Behind `import` and `export` the machine searches a clause for `from`, and takes every
lexeme into the clause that does not end it. Whether it is inside a clause can be told from
the lexemes alone: from the last keyword that begins a clause, and from what stands behind.

* `Lexeme.endsClause` — what ends a clause; `OpenClause` — lexemes that end inside one.
* `Stage.Left` — how much a clause may still take; `Stage.Left.step` and
  `Stage.left_step_of_endsClause` are one step, `Stage.Left.atEnd` is a run.
* `Stage.budget_atEnd_pos_iff` — the machine is inside a clause exactly when the lexemes
  so far end inside one.
-/

namespace ModuleLookup

/-! ## Clauses -/

namespace Lexeme

/-- `import` and `export` begin a clause. -/
def opensClause (l : Lexeme) : Bool :=
  l.isKeyword "import" || l.isKeyword "export"

/-- What ends a clause, or begins another. -/
def endsClause (l : Lexeme) : Bool :=
  match l.token with
  | .literal .. => true
  | .mark c => decide (c ∈ [';', '=', '('])
  | .word _ => l.opensClause
  | .comment _ | .blank _ => false

theorem isKeyword_iff {l : Lexeme} {keyword : String} :
    l.isKeyword keyword = true ↔
      l.place.afterDot = false ∧ l.token = .word keyword.toList := by
  rw [isKeyword, Bool.and_eq_true, Bool.not_eq_true', beq_iff_eq]

/-- A lexeme is at most one keyword. -/
theorem isKeyword_of_isKeyword {l : Lexeme} {keyword : String}
    (h : l.isKeyword keyword = true) (other : String) (hne : keyword.toList ≠ other.toList) :
    l.isKeyword other = false := by
  rw [← Bool.not_eq_true, isKeyword_iff, (isKeyword_iff.1 h).2]
  exact fun ho => hne (Token.word.inj ho.2)

theorem isKeyword_eq_false {l : Lexeme} (h : ∀ w, l.token ≠ .word w) (keyword : String) :
    l.isKeyword keyword = false := by
  rw [← Bool.not_eq_true, isKeyword_iff]
  exact fun hk => h _ hk.2

theorem exists_word_of_opensClause {l : Lexeme} (h : l.opensClause = true) :
    ∃ w, l.token = .word w := by
  rw [opensClause, Bool.or_eq_true, isKeyword_iff, isKeyword_iff] at h
  rcases h with h | h
  · exact ⟨_, h.2⟩
  · exact ⟨_, h.2⟩

/-- What begins a clause ends the one before. -/
theorem endsClause_of_opensClause {l : Lexeme} (h : l.opensClause = true) :
    l.endsClause = true := by
  obtain ⟨w, hw⟩ := exists_word_of_opensClause h
  rw [endsClause, hw]
  exact h

theorem opensClause_of_endsClause {l : Lexeme} (h : l.endsClause = false) :
    l.opensClause = false := by
  rw [← Bool.not_eq_true]
  intro ho
  rw [endsClause_of_opensClause ho] at h
  cases h

theorem not_word_of_isTrivia {l : Lexeme} (h : l.isTrivia = true) (w : List Char) :
    l.token ≠ .word w := by
  intro hw
  rw [isTrivia, hw] at h
  cases h

theorem isTrivia_of_isKeyword {l : Lexeme} {keyword : String} (h : l.isKeyword keyword = true) :
    l.isTrivia = false := by
  rw [isTrivia, (isKeyword_iff.1 h).2]
  rfl

theorem endsClause_of_isTrivia {l : Lexeme} (h : l.isTrivia = true) : l.endsClause = false := by
  rw [isTrivia] at h
  rw [endsClause]
  cases ht : l.token with
  | comment | blank => rfl
  | _ =>
    rw [ht] at h
    cases h

/-- Other keywords do not end a clause. -/
theorem endsClause_of_isKeyword {l : Lexeme} {keyword : String} (h : l.isKeyword keyword = true)
    (hi : keyword.toList ≠ "import".toList) (he : keyword.toList ≠ "export".toList) :
    l.endsClause = false := by
  rw [endsClause, (isKeyword_iff.1 h).2]
  exact Bool.or_eq_false_iff.2
    ⟨isKeyword_of_isKeyword h "import" hi, isKeyword_of_isKeyword h "export" he⟩

theorem isTrivia_of_endsClause {l : Lexeme} (h : l.endsClause = true) : l.isTrivia = false := by
  rw [← Bool.not_eq_true]
  intro ht
  rw [endsClause_of_isTrivia ht] at h
  cases h

end Lexeme

/-- The bytes that some lexemes take. -/
def totalSize : List Lexeme → Nat
  | [] => 0
  | l :: ls => l.size + totalSize ls

/-- Lexemes that end inside a clause: nothing has ended it since its keyword, and the limit
is not reached. Behind `import` the bytes are counted from the first that is no trivia. -/
def OpenClause (ls : List Lexeme) : Prop :=
  ∃ as k bs, ls = as ++ k :: bs ∧ (∀ l ∈ bs, l.endsClause = false) ∧
    (k.isKeyword "export" = true ∧ totalSize bs < clauseLimit ∨
      k.isKeyword "import" = true ∧ totalSize (bs.dropWhile Lexeme.isTrivia) < clauseLimit)

namespace Stage

/-- The bytes that a clause may still take. -/
def budget : Stage → Nat
  | clause _ n | sought _ n => n
  | imported => clauseLimit
  | code | called | argument _ | closing _ => 0

/-- The stage is not directly behind `import`, and a clause may still take `n` bytes. -/
def Left (n : Nat) (s : Stage) : Prop :=
  s ≠ imported ∧ s.budget = n

theorem left_code : code.Left 0 :=
  ⟨by simp, rfl⟩

theorem left_clause (kind : Reference.Kind) (n : Nat) : (clause kind n).Left n :=
  ⟨by simp, rfl⟩

theorem left_sought (kind : Reference.Kind) (n : Nat) : (sought kind n).Left n :=
  ⟨by simp, rfl⟩

/-- A string is a literal that is no template. -/
theorem stringBody?_eq_some_iff {t : Token} {body : List Char} {closed : Bool} :
    stringBody? t = some (body, closed) ↔ ∃ q, q ≠ '\x60' ∧ t = .literal q body closed := by
  constructor
  · intro h
    cases t with
    | literal q inside ended =>
      rw [stringBody?] at h
      split at h
      · cases h
      · next hq =>
        cases h
        exact ⟨q, hq, rfl⟩
    | _ => cases h
  · rintro ⟨q, hq, rfl⟩
    exact if_neg hq

/-- A literal has a quote at least. -/
theorem size_pos_of_stringBody? {l : Lexeme} {body : List Char} {closed : Bool}
    (h : stringBody? l.token = some (body, closed)) : 0 < l.size := by
  obtain ⟨q, -, hq⟩ := stringBody?_eq_some_iff.1 h
  rw [Lexeme.size, Token.size, hq]
  cases closed with
  | true => exact Nat.add_pos_left (Char.utf8Size_pos q) _
  | false => exact Nat.add_pos_left (Char.utf8Size_pos q) _

theorem isTrivia_of_stringBody? {l : Lexeme} {body : List Char} {closed : Bool}
    (h : stringBody? l.token = some (body, closed)) : l.isTrivia = false := by
  obtain ⟨q, -, hq⟩ := stringBody?_eq_some_iff.1 h
  rw [Lexeme.isTrivia, hq]
  rfl

section Steps

variable {l : Lexeme} {s : Stage}

theorem enter_of_require (h : l.isKeyword "require" = true) : enter l = called := by
  rw [enter, if_pos h]

theorem enter_of_import (h : l.isKeyword "import" = true) : enter l = imported := by
  rw [enter, Lexeme.isKeyword_of_isKeyword h "require" (by decide), h]
  rfl

theorem enter_of_export (h : l.isKeyword "export" = true) :
    enter l = clause .exportFrom clauseLimit := by
  rw [enter, Lexeme.isKeyword_of_isKeyword h "require" (by decide),
    Lexeme.isKeyword_of_isKeyword h "import" (by decide), h]
  rfl

theorem enter_of_not_word (h : ∀ w, l.token ≠ .word w) : enter l = code := by
  rw [enter, Lexeme.isKeyword_eq_false h, Lexeme.isKeyword_eq_false h,
    Lexeme.isKeyword_eq_false h]
  rfl

theorem enter_of_isTrivia (h : l.isTrivia = true) : enter l = code :=
  enter_of_not_word (Lexeme.not_word_of_isTrivia h)

/-- A clause is left where it has no bytes left or something ends it, and otherwise goes on. -/
theorem inClause_eq (kind : Reference.Kind) (n : Nat) (l : Lexeme) :
    inClause kind n l = if n = 0 ∨ l.endsClause = true then enter l
      else if l.isKeyword "from" then sought kind (n - l.size) else clause kind (n - l.size) := by
  by_cases hn : n = 0
  · rw [inClause, if_pos hn, if_pos (.inl hn)]
  · rw [inClause, if_neg hn, Lexeme.endsClause]
    cases ht : l.token with
    | literal q body closed => simp
    | mark | comment | blank =>
      have hf : l.isKeyword "from" = false := Lexeme.isKeyword_eq_false (by simp [ht]) "from"
      simp [hn, hf]
    | word w => simp [hn, Lexeme.opensClause]

/-- No clause begins at other lexemes. -/
theorem left_enter (h : l.opensClause = false) : (enter l).Left 0 := by
  rw [Lexeme.opensClause, Bool.or_eq_false_iff] at h
  rw [enter, h.1, h.2]
  split
  · exact ⟨by simp, rfl⟩
  · exact left_code

/-- A lexeme that does not end the clause takes its bytes. -/
theorem left_inClause (kind : Reference.Kind) (n : Nat) (h : l.endsClause = false) :
    (inClause kind n l).Left (n - l.size) := by
  rw [inClause_eq, h]
  by_cases hn : n = 0
  · rw [if_pos (.inl hn), hn, Nat.zero_sub]
    exact left_enter (Lexeme.opensClause_of_endsClause h)
  · rw [if_neg (by simp [hn])]
    split
    · exact left_sought kind _
    · exact left_clause kind _

/-- What ends the clause ends it. -/
theorem left_inClause_of_endsClause (kind : Reference.Kind) (n : Nat)
    (h : l.endsClause = true) (hl : l.opensClause = false) : (inClause kind n l).Left 0 := by
  rw [inClause_eq, if_pos (.inr h)]
  exact left_enter hl

theorem stringBody?_of_endsClause (h : l.endsClause = false) : stringBody? l.token = none := by
  rw [Lexeme.endsClause] at h
  split at h
  · cases h
  all_goals
    next ht => rw [ht]; rfl

/-- A keyword of a clause begins it at every stage. -/
theorem step_of_opensClause (s : Stage) (h : l.opensClause = true) :
    s.step l = (enter l, none) := by
  obtain ⟨w, hw⟩ := Lexeme.exists_word_of_opensClause h
  have ht : l.isTrivia = false := by
    rw [Lexeme.isTrivia, hw]
    rfl
  have hin (kind : Reference.Kind) (n : Nat) : inClause kind n l = enter l := by
    rw [inClause_eq, if_pos (.inr (Lexeme.endsClause_of_opensClause h))]
  cases s with
  | code => rfl
  | clause kind n => rw [step, hin]
  | imported =>
    rw [step, ht, hw, hin]
    rfl
  | sought kind n =>
    rw [step, ht, hw, hin]
    rfl
  | _ =>
    rw [step, ht, hw]
    rfl

/-- Where no clause is open, none is opened by anything but a keyword. -/
theorem Left.step_zero (hs : s.Left 0) (h : l.opensClause = false) : (s.step l).1.Left 0 := by
  have henter := left_enter h
  cases s with
  | code => exact henter
  | called =>
    rw [step]
    split
    · exact hs
    · split
      · exact ⟨by simp, rfl⟩
      · exact henter
  | argument kind =>
    rw [step]
    split
    · exact hs
    · split
      · exact ⟨by simp, rfl⟩
      · exact henter
  | closing found =>
    rw [step]
    split
    · exact hs
    · split
      · exact left_code
      · exact henter
  | imported => exact absurd rfl hs.1
  | clause kind n =>
    obtain rfl : n = 0 := hs.2
    exact henter
  | sought kind n =>
    obtain rfl : n = 0 := hs.2
    rw [step]
    split
    · rw [Nat.zero_sub]
      exact hs
    · split
      · exact left_code
      · exact left_code
      · exact henter

/-- A lexeme that does not end a clause takes its bytes, at every stage. -/
theorem Left.step {n : Nat} (hs : s.Left n) (h : l.endsClause = false) :
    (s.step l).1.Left (n - l.size) := by
  obtain ⟨hne, rfl⟩ := hs
  cases s with
  | imported => exact absurd rfl hne
  | clause kind n => exact left_inClause kind n h
  | sought kind n =>
    rw [Stage.step, stringBody?_of_endsClause h]
    split
    · exact left_sought kind _
    · exact left_inClause kind n h
  | _ =>
    rw [budget, Nat.zero_sub]
    exact Left.step_zero ⟨by simp, rfl⟩ (Lexeme.opensClause_of_endsClause h)

/-- Directly behind `import` the first lexeme that is no trivia begins the clause. -/
theorem step_imported (h : l.endsClause = false) (ht : l.isTrivia = false) :
    imported.step l = (inClause .importFrom clauseLimit l, none) := by
  have hmark : l.token ≠ .mark '(' := by
    intro hm
    rw [Lexeme.endsClause, hm] at h
    cases h
  rw [step, ht, if_neg hmark, stringBody?_of_endsClause h]
  rfl

theorem left_step_imported (h : l.endsClause = false) (ht : l.isTrivia = false) :
    (imported.step l).1.Left (clauseLimit - l.size) := by
  rw [step_imported h ht]
  exact left_inClause .importFrom clauseLimit h

/-- What ends a clause leaves none open, at every stage. -/
theorem left_step_of_endsClause (s : Stage) (h : l.endsClause = true)
    (hl : l.opensClause = false) : (s.step l).1.Left 0 := by
  have ht := Lexeme.isTrivia_of_endsClause h
  cases s with
  | imported =>
    rw [step, ht]
    split
    · next hf => cases hf
    · split
      · exact ⟨by simp, rfl⟩
      · split
        · exact left_code
        · exact left_code
        · exact left_inClause_of_endsClause .importFrom clauseLimit h hl
  | clause kind n => exact left_inClause_of_endsClause kind n h hl
  | sought kind n =>
    rw [step, ht]
    split
    · next hf => cases hf
    · split
      · exact left_code
      · exact left_code
      · exact left_inClause_of_endsClause kind n h hl
  | _ => exact Left.step_zero ⟨by simp, rfl⟩ hl

end Steps

/-! ## Runs -/

theorem Left.atEnd {s : Stage} {n : Nat} (hs : s.Left n) {ls : List Lexeme}
    (h : ∀ l ∈ ls, l.endsClause = false) : (s.atEnd ls).Left (n - totalSize ls) := by
  induction ls generalizing s n with
  | nil => exact hs
  | cons l ls ih =>
    have htail := ih (hs.step (h l List.mem_cons_self)) fun m hm =>
      h m (List.mem_cons_of_mem l hm)
    rw [Nat.sub_sub] at htail
    exact htail

/-- Behind `import` the bytes of the clause count from where it begins. -/
theorem budget_atEnd_imported {ls : List Lexeme} (h : ∀ l ∈ ls, l.endsClause = false) :
    (imported.atEnd ls).budget = clauseLimit - totalSize (ls.dropWhile Lexeme.isTrivia) := by
  induction ls with
  | nil => rfl
  | cons l ls ih =>
    have htail : ∀ m ∈ ls, m.endsClause = false := fun m hm => h m (List.mem_cons_of_mem l hm)
    cases ht : l.isTrivia with
    | true =>
      -- the clause has not begun, and takes nothing
      rw [List.dropWhile_cons_of_pos ht, ← ih htail, Stage.atEnd, step, ht]
      rfl
    | false =>
      have hl := left_step_imported (h l List.mem_cons_self) ht
      rw [List.dropWhile_cons_of_neg (by rw [ht]; exact Bool.false_ne_true), Stage.atEnd,
        (hl.atEnd htail).2, Nat.sub_sub]
      rfl

theorem atEnd_append (s : Stage) (ls ms : List Lexeme) :
    s.atEnd (ls ++ ms) = (s.atEnd ls).atEnd ms := by
  induction ls generalizing s with
  | nil => rfl
  | cons l ls ih => exact ih _

/-- The stage behind a keyword of a clause does not depend on what is before it. -/
theorem atEnd_keyword (s : Stage) (as : List Lexeme) {k : Lexeme} (hk : k.opensClause = true)
    (bs : List Lexeme) : s.atEnd (as ++ k :: bs) = (enter k).atEnd bs := by
  rw [atEnd_append, atEnd, step_of_opensClause _ hk]

/-- Either nothing has ended the last clause, or none is open. -/
theorem exists_keyword_or_left (ls : List Lexeme) :
    (∃ as k bs, ls = as ++ k :: bs ∧ k.opensClause = true ∧ ∀ l ∈ bs, l.endsClause = false) ∨
      (code.atEnd ls).Left 0 := by
  -- from the back: only the last lexeme can begin or end the last clause
  induction ls using List.reverseRecOn with
  | nil => exact .inr left_code
  | append_singleton ls l ih =>
    have hstep : code.atEnd (ls ++ [l]) = ((code.atEnd ls).step l).1 := by
      rw [atEnd_append]
      rfl
    cases ho : l.opensClause with
    | true => exact .inl ⟨ls, l, [], rfl, ho, fun m hm => absurd hm List.not_mem_nil⟩
    | false =>
      cases he : l.endsClause with
      | true =>
        right
        rw [hstep]
        exact left_step_of_endsClause _ he ho
      | false =>
        rcases ih with ⟨as, k, bs, rfl, hk, hbs⟩ | hleft
        · refine .inl ⟨as, k, bs ++ [l], ?_, hk, fun m hm => ?_⟩
          · rw [List.append_assoc, List.cons_append]
          · rcases List.mem_append.1 hm with hm | hm
            · exact hbs m hm
            · rw [List.mem_singleton.1 hm]
              exact he
        · right
          rw [hstep, ← Nat.zero_sub l.size]
          exact hleft.step he

/-- **The machine is inside a clause** exactly when the lexemes so far end inside one. -/
theorem budget_atEnd_pos_iff (ls : List Lexeme) :
    0 < (code.atEnd ls).budget ↔ OpenClause ls := by
  constructor
  · intro h
    rcases exists_keyword_or_left ls with ⟨as, k, bs, rfl, hk, hbs⟩ | hleft
    · refine ⟨as, k, bs, rfl, hbs, ?_⟩
      rw [atEnd_keyword _ _ hk] at h
      rw [Lexeme.opensClause, Bool.or_eq_true] at hk
      rcases hk with hi | he
      · rw [enter_of_import hi, budget_atEnd_imported hbs] at h
        exact .inr ⟨hi, Nat.lt_of_sub_pos h⟩
      · rw [enter_of_export he, ((left_clause .exportFrom clauseLimit).atEnd hbs).2] at h
        exact .inl ⟨he, Nat.lt_of_sub_pos h⟩
    · rw [hleft.2] at h
      exact absurd h (Nat.lt_irrefl 0)
  · rintro ⟨as, k, bs, rfl, hbs, ⟨he, hlt⟩ | ⟨hi, hlt⟩⟩
    · have hk : k.opensClause = true := by
        rw [Lexeme.opensClause, he, Bool.or_true]
      rw [atEnd_keyword _ _ hk, enter_of_export he,
        ((left_clause .exportFrom clauseLimit).atEnd hbs).2]
      exact Nat.sub_pos_of_lt hlt
    · have hk : k.opensClause = true := by
        rw [Lexeme.opensClause, hi, Bool.true_or]
      rw [atEnd_keyword _ _ hk, enter_of_import hi, budget_atEnd_imported hbs]
      exact Nat.sub_pos_of_lt hlt

end Stage

end ModuleLookup
