import ModuleLookup.Source.Cursor
import ModuleLookup.Proofs.Text.Bytes

/-!
# Looking at bytes

What the cursor sees of a text, and how its loops go on over a piece of it. A cut between two
characters is seen as the first byte of the next one: the character itself if it is below 128,
and some character that is not below 128 otherwise. Tests that do not tell those apart see the
text itself.

* `Coarse` — such tests; `peek_at` — what is seen at a cut; `exists_peek` — what is seen inside
  of a piece of the text.
* `loop_skip` — rounds that go on byte by byte; `skipWhile_eq`.
* `isPrefixOf_bytesOf` — words below 128 are found in the bytes where they are in the text.
-/

namespace ModuleLookup.Cursor

/-! ## Tests -/

/-- What is seen of a character at a cut. -/
def lead (c : Char) : Char :=
  Char.ofUInt8 ((bytesOf [c]).headD 0)

/-- A test that does not tell characters outside of ASCII apart. -/
def Coarse (P : Char → Bool) : Prop :=
  ∀ c d : Char, 128 ≤ c.toNat → 128 ≤ d.toNat → P c = P d

theorem coarse_of_eq {P : Char → Bool} {b : Bool} (h : ∀ c : Char, 128 ≤ c.toNat → P c = b) :
    Coarse P := fun c d hc hd => (h c hc).trans (h d hd).symm

theorem ne_of_le {c d : Char} (hc : 128 ≤ c.toNat) (hd : d.toNat < 128) : c ≠ d := by
  rintro rfl
  exact Nat.not_le_of_lt hd hc

theorem isWordChar_of_le {c : Char} (h : 128 ≤ c.toNat) : isWordChar c = true := by
  rw [isWordChar, Bool.or_eq_true]
  exact .inr (decide_eq_true h)

theorem coarse_isWordChar : Coarse isWordChar :=
  coarse_of_eq fun _ => isWordChar_of_le

/-- A test for a single character of ASCII is coarse. -/
theorem coarse_bne {d : Char} (h : d.toNat < 128) : Coarse (· != d) :=
  coarse_of_eq fun _ hc => bne_iff_ne.2 (ne_of_le hc h)

theorem toNat_ofUInt8 (b : UInt8) : (Char.ofUInt8 b).toNat = b.toNat :=
  UInt8.toNat_toUInt32 b

theorem ofUInt8_toUInt8 {c : Char} (h : c.toNat < 128) : Char.ofUInt8 c.toNat.toUInt8 = c := by
  rw [← Char.toNat_inj, toNat_ofUInt8, toNat_toUInt8_of_lt h]

theorem lead_of_lt {c : Char} (h : c.toNat < 128) : lead c = c := by
  rw [lead, bytesOf_singleton h]
  exact ofUInt8_toUInt8 h

theorem bytesOf_singleton_ne_nil (c : Char) : bytesOf [c] ≠ [] := by
  have hsize := Char.utf8Size_pos c
  have hlength := length_bytesOf [c]
  rw [byteLength_cons, byteLength_nil] at hlength
  intro h
  rw [h, List.length_nil] at hlength
  omega

theorem le_lead {c : Char} (h : 128 ≤ c.toNat) : 128 ≤ (lead c).toNat := by
  obtain ⟨b, more, hbytes⟩ := List.exists_cons_of_ne_nil (bytesOf_singleton_ne_nil c)
  rw [lead, hbytes, List.headD_cons, toNat_ofUInt8]
  exact le_of_mem_bytesOf_singleton h (by rw [hbytes]; exact List.mem_cons_self)

/-- A coarse test sees a character by its first byte. -/
theorem Coarse.lead {P : Char → Bool} (h : Coarse P) (c : Char) : P (lead c) = P c := by
  rcases Nat.lt_or_ge c.toNat 128 with hc | hc
  · rw [lead_of_lt hc]
  · exact h _ _ (le_lead hc) hc

theorem lead_eq_iff {c d : Char} (hd : d.toNat < 128) : lead c = d ↔ c = d := by
  rcases Nat.lt_or_ge c.toNat 128 with hc | hc
  · rw [lead_of_lt hc]
  · exact iff_of_false (ne_of_le (le_lead hc) hd) (ne_of_le hc hd)

/-! ## Places -/

section

variable {front cs rest : List Char} {i : Nat}

theorem getElem?_bytesOf_append (front cs : List Char) (i : Nat) :
    (bytesOf (front ++ cs))[byteLength front + i]? = (bytesOf cs)[i]? := by
  rw [bytesOf_append, List.getElem?_append_right (by simp), length_bytesOf, Nat.add_sub_cancel_left]

/-- What is seen at a cut. -/
theorem peek_at (front cs : List Char) :
    peek (bytesOf (front ++ cs)) (byteLength front) = cs.head?.map lead := by
  rw [peek, ← Nat.add_zero (byteLength front), getElem?_bytesOf_append]
  cases cs with
  | nil => rfl
  | cons c cs =>
    obtain ⟨b, more, hbytes⟩ := List.exists_cons_of_ne_nil (bytesOf_singleton_ne_nil c)
    rw [bytesOf_cons, List.head?_cons, Option.map_some, lead, hbytes]
    rfl

theorem peek_lt {bytes : List UInt8} {p : Nat} {c : Char} (h : peek bytes p = some c) :
    p < bytes.length := by
  rw [peek, Option.map_eq_some_iff] at h
  obtain ⟨b, hb, -⟩ := h
  exact (List.getElem?_eq_some_iff.1 hb).1

theorem peek_cons (front : List Char) (c : Char) (cs : List Char) :
    peek (bytesOf (front ++ c :: cs)) (byteLength front) = some (lead c) :=
  peek_at front (c :: cs)

/-- Every byte of a piece of a text passes a coarse test that its characters pass. -/
theorem exists_peek {P : Char → Bool} (hP : Coarse P) (hcs : ∀ c ∈ cs, P c = true)
    (hi : i < byteLength cs) :
    ∃ d, peek (bytesOf (front ++ (cs ++ rest))) (byteLength front + i) = some d ∧ P d = true := by
  have hlength : i < (bytesOf cs).length := by rwa [length_bytesOf]
  have hget : (bytesOf (front ++ (cs ++ rest)))[byteLength front + i]? = some (bytesOf cs)[i] := by
    rw [getElem?_bytesOf_append, bytesOf_append, List.getElem?_append_left hlength,
      List.getElem?_eq_getElem hlength]
  refine ⟨Char.ofUInt8 (bytesOf cs)[i], by rw [peek, hget, Option.map_some], ?_⟩
  obtain ⟨c, hc, hmem⟩ := List.mem_flatMap.1 (List.getElem_mem hlength)
  have hsingle : (bytesOf cs)[i] ∈ bytesOf [c] := by
    rw [bytesOf, List.flatMap_singleton]
    exact hmem
  rcases Nat.lt_or_ge c.toNat 128 with hlow | hhigh
  · rw [bytesOf_singleton hlow, List.mem_singleton] at hsingle
    rw [hsingle, ofUInt8_toUInt8 hlow]
    exact hcs c hc
  · have hbyte := le_of_mem_bytesOf_singleton hhigh hsingle
    rw [← toNat_ofUInt8] at hbyte
    rw [hP _ c hbyte hhigh]
    exact hcs c hc

theorem utf8Size_of_lt {c : Char} (h : c.toNat < 128) : c.utf8Size = 1 := by
  have hlength := length_bytesOf [c]
  rw [bytesOf_singleton h, byteLength_cons, byteLength_nil] at hlength
  exact hlength.symm

/-- Behind its first byte a character has only bytes that are not below 128. -/
theorem exists_peek_inside {c : Char} (hpos : 0 < i) (hi : i < c.utf8Size) :
    ∃ d, peek (bytesOf (front ++ c :: rest)) (byteLength front + i) = some d ∧
      128 ≤ d.toNat := by
  have hc : 128 ≤ c.toNat := by
    rcases Nat.lt_or_ge c.toNat 128 with hlow | hhigh
    · rw [utf8Size_of_lt hlow] at hi
      omega
    · exact hhigh
  have hcoarse : Coarse fun d => decide (128 ≤ d.toNat) :=
    coarse_of_eq fun _ hd => decide_eq_true hd
  have hall : ∀ d ∈ [c], decide (128 ≤ d.toNat) = true := fun d hd => by
    rw [List.mem_singleton.1 hd]
    exact decide_eq_true hc
  obtain ⟨d, hpeek, hd⟩ := @exists_peek front [c] rest i _ hcoarse hall hi
  exact ⟨d, hpeek, of_decide_eq_true hd⟩

end

/-! ## Loops -/

@[simp] theorem ok_bind {α β : Type} (a : α) (f : α → Checked β) :
    ((Except.ok a : Checked α) >>= f) = f a := rfl

@[simp] theorem map_ok {α β : Type} (g : α → β) (a : α) :
    g <$> (Except.ok a : Checked α) = .ok (g a) := rfl

section

variable {α : Type} {bytes : List UInt8} {round : Nat → Checked (Round α)} {p next : Nat}

theorem loop_done {a : α} (h : round p = .ok (.done a)) : loop bytes round p = .ok a := by
  rw [loop, h]

theorem loop_again (h : round p = .ok (.again next)) (hp : p < bytes.length) (hnext : p < next) :
    loop bytes round p = loop bytes round next := by
  rw [loop, h]
  exact if_pos ⟨hp, hnext⟩

/-- Rounds that go on byte by byte. -/
theorem loop_skip (hp : p ≤ next) (hnext : next ≤ bytes.length)
    (h : ∀ q, p ≤ q → q < next → round q = .ok (.again (q + 1))) :
    loop bytes round p = loop bytes round next := by
  induction hp with
  | refl => rfl
  | @step q hq ih =>
    rw [ih (by omega) fun i hp hi => h i hp (by omega),
      loop_again (h q hq (Nat.lt_succ_self q)) (by omega) (Nat.lt_succ_self q)]

end

theorem byteLength_le_length_bytesOf (front cs : List Char) :
    byteLength front ≤ (bytesOf (front ++ cs)).length := by
  rw [length_bytesOf, byteLength_append]
  exact Nat.le_add_right _ _

/-- A loop that goes on at bytes that are not below 128 goes on to the end of a character. -/
theorem loop_tail {α : Type} {bytes : List UInt8} {round : Nat → Checked (Round α)}
    (hhigh : ∀ p d, peek bytes p = some d → 128 ≤ d.toNat → round p = .ok (.again (p + 1)))
    {front rest : List Char} {c : Char} (hbytes : bytes = bytesOf (front ++ c :: rest)) :
    loop bytes round (byteLength front + 1) = loop bytes round (byteLength (front ++ [c])) := by
  have hpos := Char.utf8Size_pos c
  have hsize : byteLength (front ++ [c]) = byteLength front + 1 + (c.utf8Size - 1) := by
    rw [byteLength_append, byteLength_cons, byteLength_nil]
    omega
  have hlength : byteLength (front ++ [c]) ≤ bytes.length := by
    rw [hbytes, List.append_cons front c rest]
    exact byteLength_le_length_bytesOf (front ++ [c]) rest
  refine loop_skip (by omega) hlength fun q hp hq => ?_
  obtain ⟨i, rfl⟩ := Nat.exists_eq_add_of_lt (Nat.lt_of_succ_le hp)
  obtain ⟨d, hpeek, hd⟩ := @exists_peek_inside front rest (i + 1) c (Nat.succ_pos i) (by omega)
  rw [← hbytes] at hpeek
  exact hhigh _ d hpeek hd

section

variable {bytes : List UInt8} {kind : Char → Bool} {p : Nat}

theorem kindRound_of_any (h : (peek bytes p).any kind = true) :
    kindRound bytes kind p = .ok (.again (p + 1)) := by
  rw [kindRound, if_pos h]

theorem skipWhile_of_not_any (h : (peek bytes p).any kind = false) :
    skipWhile bytes kind p = .ok p :=
  loop_done (by rw [kindRound, h]; rfl)

theorem skipWhile_of_any (h : (peek bytes p).any kind = true) :
    skipWhile bytes kind p = skipWhile bytes kind (p + 1) := by
  obtain ⟨c, hc, -⟩ := Option.any_eq_true _ _ |>.1 h
  exact loop_again (kindRound_of_any h) (peek_lt hc) (Nat.lt_succ_self p)

/-- Bytes of a kind are stepped over like the characters. -/
theorem skipWhile_eq (hkind : Coarse kind) {front run rest : List Char}
    (hrun : ∀ c ∈ run, kind c = true) (hrest : ∀ c ∈ rest.head?, kind c = false) :
    skipWhile (bytesOf (front ++ (run ++ rest))) kind (byteLength front)
      = .ok (byteLength (front ++ run)) := by
  have hlength := byteLength_le_length_bytesOf (front ++ run) rest
  rw [List.append_assoc] at hlength
  have hround (q : Nat) (hp : byteLength front ≤ q) (hq : q < byteLength (front ++ run)) :
      kindRound (bytesOf (front ++ (run ++ rest))) kind q = .ok (.again (q + 1)) := by
    obtain ⟨i, rfl⟩ := Nat.exists_eq_add_of_le hp
    rw [byteLength_append] at hq
    obtain ⟨d, hpeek, hd⟩ := @exists_peek front run rest i kind hkind hrun (by omega)
    exact kindRound_of_any (by rw [hpeek, Option.any_some, hd])
  have hstop : (peek (bytesOf (front ++ (run ++ rest))) (byteLength (front ++ run))).any kind
      = false := by
    rw [← List.append_assoc, peek_at]
    cases rest with
    | nil => rfl
    | cons c rest =>
      rw [List.head?_cons, Option.map_some, Option.any_some, hkind.lead]
      exact hrest c rfl
  rw [skipWhile, loop_skip (by rw [byteLength_append]; omega) hlength hround]
  exact skipWhile_of_not_any hstop

end

/-! ## Words -/

/-- Words below 128 are found in the bytes where they are in the text. -/
theorem isPrefixOf_bytesOf {w : List Char} (h : ∀ c ∈ w, c.toNat < 128) (cs : List Char) :
    (bytesOf w).isPrefixOf (bytesOf cs) = w.isPrefixOf cs := by
  induction w generalizing cs with
  | nil => rfl
  | cons c w ih =>
    have hc := h c List.mem_cons_self
    rw [bytesOf_cons, bytesOf_singleton hc, List.singleton_append]
    cases cs with
    | nil => rfl
    | cons d cs =>
      obtain ⟨b, more, hbytes⟩ := List.exists_cons_of_ne_nil (bytesOf_singleton_ne_nil d)
      have hlead : lead d = Char.ofUInt8 b := by rw [lead, hbytes, List.headD_cons]
      by_cases hdc : c = d
      · subst hdc
        rw [bytesOf_cons, bytesOf_singleton hc, List.singleton_append, List.isPrefixOf_cons_cons,
          List.isPrefixOf_cons_cons, ih fun e he => h e (List.mem_cons_of_mem c he)]
        simp only [beq_self_eq_true]
      · have hb : c.toNat.toUInt8 ≠ b := by
          rintro rfl
          rw [ofUInt8_toUInt8 hc] at hlead
          exact hdc ((lead_eq_iff hc).1 hlead).symm
        rw [bytesOf_cons, hbytes, List.cons_append, List.isPrefixOf_cons_cons,
          List.isPrefixOf_cons_cons, beq_eq_false_iff_ne.2 hb, beq_eq_false_iff_ne.2 hdc, Bool.false_and, Bool.false_and]

/-- So they are behind a cut. -/
theorem bytesFrom_at (front cs : List Char) :
    bytesFrom (bytesOf (front ++ cs)) (byteLength front) = .ok (bytesOf cs) := by
  rw [bytesFrom, if_pos (byteLength_le_length_bytesOf front cs), bytesOf_append,
    List.drop_left' (length_bytesOf front)]

end ModuleLookup.Cursor
