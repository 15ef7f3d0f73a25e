import ModuleLookup.Proofs.Cursor.Keywords

/-!
# Agreement with the machine

A form is read in place with the result that the machine has on the tokens: the same reference
or none, and the cursor is left where the machine is back in ordinary code. It may also be left
inside of a word, where ordinary code goes on to the end of the word.

* `finds` — what the machine finds on the tokens behind a place.
* `Resumes` — a cursor in front of some tokens, or inside of the word before them.
* `Reads` — a reading that the machine agrees with; `Reads.append` — it may begin further on;
  `Reads.here`, `Reads.behind`, `Reads.give_up` — where it ends.
-/

namespace ModuleLookup

/-- A reference by its places. -/
def Reference.found (r : Reference) : Cursor.Found :=
  ⟨r.kind, r.start, r.stop⟩

namespace Cursor

open Stage (code refer)

/-- What the machine finds from a stage on, behind the first tokens of a text. -/
def finds (s : Stage) (ts us : List Token) : List Found :=
  (s.run (lexemes (Place.start.afterAll ts) us)).map Reference.found

section

variable {cs : List Char} {ts us gap : List Token} {t : Token} {s s' : Stage} {p : Nat}

/-! ## The machine behind a place -/

@[simp] theorem finds_nil (s : Stage) (ts : List Token) : finds s ts [] = [] := rfl

theorem finds_cons (s : Stage) (ts us : List Token) (t : Token) :
    finds s ts (t :: us) = (s.step (lexemeBehind ts t)).2.toList.map Reference.found
      ++ finds (s.step (lexemeBehind ts t)).1 (ts ++ [t]) us := by
  rw [finds, lexemes, Stage.run, List.map_append, finds, afterAll_append]
  rfl

/-- A step that completes nothing. -/
theorem finds_of_step (h : s.step (lexemeBehind ts t) = (s', none)) (us : List Token) :
    finds s ts (t :: us) = finds s' (ts ++ [t]) us := by
  rw [finds_cons, h]
  rfl

theorem finds_of_step_some {r : Reference} (h : s.step (lexemeBehind ts t) = (s', some r))
    (us : List Token) : finds s ts (t :: us) = r.found :: finds s' (ts ++ [t]) us := by
  rw [finds_cons, h]
  rfl

/-- Two stages that do the same with the next token. -/
theorem finds_of_step_eq
    (h : ∀ t ∈ us.head?, s.step (lexemeBehind ts t) = s'.step (lexemeBehind ts t)) :
    finds s ts us = finds s' ts us := by
  cases us with
  | nil => rfl
  | cons t us => rw [finds_cons, h t rfl, finds_cons]

/-- Trivia that leaves a stage as it is. -/
theorem finds_gap (hs : ∀ l : Lexeme, l.isTrivia = true → s.step l = (s, none))
    (hgap : ∀ t ∈ gap, t.isTrivia = true) (ts us : List Token) :
    finds s ts (gap ++ us) = finds s (ts ++ gap) us := by
  induction gap generalizing ts with
  | nil => rw [List.nil_append, List.append_nil]
  | cons t gap ih =>
    have hstep := hs (lexemeBehind ts t) (hgap t List.mem_cons_self)
    rw [List.cons_append, finds_of_step hstep, ih fun u hu => hgap u (List.mem_cons_of_mem t hu),
      ← List.append_cons]

theorem offset_lexemeBehind (ts : List Token) (t : Token) :
    (lexemeBehind ts t).place.offset = offsetBehind ts := by
  rw [lexemeBehind, (afterAll_eq Place.start ts).1]
  exact Nat.zero_add _

theorem found_refer (kind : Reference.Kind) (ts : List Token) (t : Token) (body : List Char) :
    (refer kind (lexemeBehind ts t) body).found
      = ⟨kind, offsetBehind ts + 1, offsetBehind ts + 1 + byteLength body⟩ := by
  rw [Reference.found, refer, offset_lexemeBehind]

/-- Tokens begin with trivia. -/
theorem exists_gap (us : List Token) : ∃ gap rest, us = gap ++ rest ∧
    (∀ t ∈ gap, t.isTrivia = true) ∧ ∀ t ∈ rest.head?, t.isTrivia = false := by
  refine ⟨us.takeWhile Token.isTrivia, us.dropWhile Token.isTrivia,
    List.takeWhile_append_dropWhile.symm, fun t ht => ?_, fun t ht => ?_⟩
  · exact List.all_eq_true.1 List.all_takeWhile t ht
  · have hhead := List.head?_dropWhile_not Token.isTrivia us
    rw [Option.mem_def.1 ht] at hhead
    exact hhead

/-! ## Agreement -/

/-- The cursor is in front of some tokens, or inside of the word before them. -/
structure Resumes (cs : List Char) (ts us : List Token) (p : Nat) : Prop where
  /-- the tokens -/
  tokens_eq : tokens cs = ts ++ us
  /-- the cursor is not behind their place -/
  le : p ≤ offsetBehind ts
  /-- it has only a word to leave -/
  inWord : ∀ q, p ≤ q → q < offsetBehind ts → InWord (bytesOf cs) q

/-- A reading behind the first tokens of a text finds what the machine finds from a stage on, up
to where it is in ordinary code. -/
def Reads (cs : List Char) (s : Stage) (ts us : List Token)
    (reading : Checked (Outcome Found)) : Prop :=
  ∃ found next ts' us', reading = .ok (found, next) ∧ Resumes cs ts' us' next ∧
    offsetBehind ts ≤ next ∧ us'.length ≤ us.length ∧
    finds s ts us = found.toList ++ finds code ts' us'

theorem Resumes.refl (h : tokens cs = ts ++ us) : Resumes cs ts us (offsetBehind ts) where
  tokens_eq := h
  le := Nat.le_refl _
  inWord _ hp hq := absurd hq (Nat.not_lt_of_le hp)

/-- What another stage finds as well is read for both. -/
theorem Reads.congr {reading : Checked (Outcome Found)} (h : Reads cs s' ts us reading)
    (hfinds : finds s ts us = finds s' ts us) : Reads cs s ts us reading := by
  obtain ⟨found, next, ts', us', hreading, hresumes, hnext, hlength, hfound⟩ := h
  exact ⟨found, next, ts', us', hreading, hresumes, hnext, hlength, hfinds.trans hfound⟩

/-- The machine ends here. -/
theorem Reads.here {found : Option Found} (h : tokens cs = ts ++ us)
    (hfinds : finds s ts us = found.toList ++ finds code ts us) :
    Reads cs s ts us (.ok (found, offsetBehind ts)) :=
  ⟨_, _, ts, us, rfl, .refl h, Nat.le_refl _, Nat.le_refl _, hfinds⟩

/-- What is read further on is read here. -/
theorem Reads.append {reading : Checked (Outcome Found)} {vs : List Token}
    (h : Reads cs s' (ts ++ vs) us reading)
    (hfinds : finds s ts (vs ++ us) = finds s' (ts ++ vs) us) : Reads cs s ts (vs ++ us) reading := by
  obtain ⟨found, next, ts', us', hreading, hresumes, hnext, hlength, hfound⟩ := h
  refine ⟨found, next, ts', us', hreading, hresumes, ?_, ?_, hfinds.trans hfound⟩
  · rw [offsetBehind_append] at hnext
    omega
  · rw [List.length_append]
    omega

theorem Reads.cons {reading : Checked (Outcome Found)} (h : Reads cs s' (ts ++ [t]) us reading)
    (hfinds : finds s ts (t :: us) = finds s' (ts ++ [t]) us) :
    Reads cs s ts (t :: us) reading := by
  rw [← List.singleton_append] at hfinds ⊢
  exact h.append hfinds

/-- The machine ends behind a token. -/
theorem Reads.behind {found : Option Found} (h : tokens cs = ts ++ t :: us)
    (hfinds : finds s ts (t :: us) = found.toList ++ finds code (ts ++ [t]) us) :
    Reads cs s ts (t :: us) (.ok (found, offsetBehind (ts ++ [t]))) := by
  have hbehind : tokens cs = (ts ++ [t]) ++ us := by rw [h, ← List.append_cons]
  exact ⟨_, _, ts ++ [t], us, rfl, .refl hbehind, Nat.le_of_lt (offsetBehind_lt h),
    Nat.le_succ _, hfinds⟩

/-- Where a stage does what ordinary code does, nothing is found. -/
theorem Reads.give_up (h : tokens cs = ts ++ us)
    (hstep : ∀ t ∈ us.head?, s.step (lexemeBehind ts t) = code.step (lexemeBehind ts t)) :
    Reads cs s ts us (.ok (none, offsetBehind ts)) :=
  Reads.here h (finds_of_step_eq hstep)

end

end Cursor

end ModuleLookup
