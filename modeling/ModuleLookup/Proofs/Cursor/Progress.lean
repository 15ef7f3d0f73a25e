import ModuleLookup.Proofs.Cursor.Scan

/-!
# The cursor gets ahead

Wherever the cursor stands in a text, every reading from there ends, and leaves the cursor in the
text or at its end, not behind where it was; a round of a loop that goes on moves it forward. The
bytes need not even be those of a text.

* `Succeeds` — a reading does not fail, and what it gives has a property; `Succeeds.bind` and
  `succeeds_loop` take this through a sequence and through a loop.
* `Ahead`, `Outcome.Lands`, `Round.Advances` — where the cursor may be after a reading, after one
  that looks for something, and after a round of a loop.
* `Progress` — what all readings from one place do; `progress_of_le` — they do it from every place
  of every text, and so every text is read to its end.
-/

namespace ModuleLookup.Cursor

/-! ## Readings that do not fail -/

/-- A reading does not fail, and what it gives has a property. -/
def Succeeds {α : Type} (reading : Checked α) (Q : α → Prop) : Prop :=
  ∃ a, reading = .ok a ∧ Q a

section

variable {α β : Type} {bytes : List UInt8} {reading : Checked α} {Q : α → Prop} {R : β → Prop}

theorem succeeds_ok {a : α} (h : Q a) : Succeeds (.ok a : Checked α) Q :=
  ⟨a, rfl, h⟩

theorem Succeeds.imp (h : Succeeds reading Q) {Q' : α → Prop} (hQ : ∀ a, Q a → Q' a) :
    Succeeds reading Q' := by
  obtain ⟨a, ha, hq⟩ := h
  exact ⟨a, ha, hQ a hq⟩

/-- What is read next may depend on what was read, and on nothing else than its property. -/
theorem Succeeds.bind {f : α → Checked β} (h : Succeeds reading Q)
    (hf : ∀ a, Q a → Succeeds (f a) R) : Succeeds (reading >>= f) R := by
  obtain ⟨a, rfl, hq⟩ := h
  exact hf a hq

theorem Succeeds.map {g : α → β} (h : Succeeds reading Q) (hg : ∀ a, Q a → R (g a)) :
    Succeeds (g <$> reading) R := by
  obtain ⟨a, rfl, hq⟩ := h
  exact ⟨g a, rfl, hg a hq⟩

/-- What a round may do that starts at a place: it ends the loop with a result of a kind, or goes
on further ahead, at a place of a kind. -/
def Round.Keeps (bytes : List UInt8) (p : Nat) (I : Nat → Prop) (Q : α → Prop) : Round α → Prop
  | .again next => (p < bytes.length ∧ p < next) ∧ I next
  | .done a => Q a

/-- **Loops end** when every round gets ahead. The invariant holds at the places where rounds
start. -/
theorem succeeds_loop {round : Nat → Checked (Round α)} {I : Nat → Prop}
    (hround : ∀ p, I p → Succeeds (round p) (Round.Keeps bytes p I Q)) {p : Nat} (hp : I p) :
    Succeeds (loop bytes round p) Q := by
  induction hn : bytes.length - p using Nat.strongRecOn generalizing p with
  | ind n ih =>
    obtain ⟨r, hr, hkeeps⟩ := hround p hp
    cases r with
    | done a =>
      rw [loop_done hr]
      exact succeeds_ok hkeeps
    | again next =>
      obtain ⟨⟨hlt, hnext⟩, hI⟩ := hkeeps
      rw [loop_again hr hlt hnext]
      exact ih (bytes.length - next) (by omega) hI rfl

end

/-! ## Places -/

/-- A place from `p` on, in a text or at its end. -/
def Ahead (bytes : List UInt8) (p q : Nat) : Prop :=
  p ≤ q ∧ q ≤ bytes.length

/-- The cursor is not behind `p`, and it has moved forward when something was found. -/
def Outcome.Lands {α : Type} (bytes : List UInt8) (p : Nat) (o : Outcome α) : Prop :=
  Ahead bytes p o.2 ∧ (o.1.isSome = true → p < o.2)

/-- A round that goes on has moved the cursor forward; one that ends the loop does so with a
result of a kind. -/
def Round.Advances {α : Type} (bytes : List UInt8) (p : Nat) (Q : α → Prop) : Round α → Prop
  | .again next => Ahead bytes (p + 1) next
  | .done a => Q a

section

variable {α : Type} {bytes : List UInt8} {p q r : Nat}

theorem Ahead.refl (hp : p ≤ bytes.length) : Ahead bytes p p :=
  ⟨Nat.le_refl p, hp⟩

theorem Ahead.trans (hq : Ahead bytes p q) (hr : Ahead bytes q r) : Ahead bytes p r :=
  ⟨Nat.le_trans hq.1 hr.1, hr.2⟩

theorem Ahead.of_succ (h : Ahead bytes (p + 1) q) : Ahead bytes p q :=
  ⟨Nat.le_of_succ_le h.1, h.2⟩

/-- With nothing found the cursor may be anywhere ahead. -/
theorem Outcome.lands_none (hq : Ahead bytes p q) : Outcome.Lands bytes p ((none, q) : Outcome α) :=
  ⟨hq, fun h => absurd h Bool.false_ne_true⟩

/-- Further ahead anything may be found. -/
theorem Outcome.lands_of_succ {o : Outcome α} (h : Ahead bytes (p + 1) o.2) : o.Lands bytes p :=
  ⟨h.of_succ, fun _ => h.1⟩

/-- What lands from further ahead lands from here. -/
theorem Outcome.Lands.mono {o : Outcome α} (h : o.Lands bytes q) (hpq : p ≤ q) :
    o.Lands bytes p := by
  obtain ⟨hahead, hfound⟩ := h
  exact ⟨⟨Nat.le_trans hpq hahead.1, hahead.2⟩, fun h => Nat.lt_of_le_of_lt hpq (hfound h)⟩

theorem Outcome.Lands.as {o : Outcome Span} (h : o.Lands bytes p) (kind : Reference.Kind) :
    (o.as kind).Lands bytes p := by
  obtain ⟨hahead, hfound⟩ := h
  refine ⟨hahead, fun h => hfound ?_⟩
  rwa [Outcome.as, Option.isSome_map] at h

/-- A form behind its keyword: whether it is found or given up, the cursor has moved forward. -/
theorem Outcome.Lands.advances {o : Outcome α} (h : o.Lands bytes q) (hpq : p < q) :
    (Round.ofOutcome o).Advances bytes p (Outcome.Lands bytes p) := by
  have hahead : Ahead bytes (p + 1) o.2 := ⟨Nat.le_trans hpq h.1.1, h.1.2⟩
  obtain ⟨_ | a, r⟩ := o
  · exact hahead
  · exact Outcome.lands_of_succ hahead

/-- A loop whose rounds get ahead ends. What its last round says of the cursor holds for the whole
loop when it may be said from further back. -/
theorem succeeds_loop_ahead {round : Nat → Checked (Round α)} {Q : Nat → α → Prop}
    (hround : ∀ q, q ≤ bytes.length → Succeeds (round q) (Round.Advances bytes q (Q q)))
    (hQ : ∀ q a, p ≤ q → Q q a → Q p a) (hp : p ≤ bytes.length) :
    Succeeds (loop bytes round p) (Q p) := by
  refine succeeds_loop (I := Ahead bytes p) (fun q hq => ?_) (Ahead.refl hp)
  refine (hround q hq.2).imp fun step hstep => ?_
  cases step with
  | done a => exact hQ q a hq.1 hstep
  | again next =>
    obtain ⟨hnext, hlength⟩ := hstep
    exact ⟨⟨Nat.lt_of_lt_of_le hnext hlength, hnext⟩, Nat.le_trans hq.1 (Nat.le_of_succ_le hnext),
      hlength⟩

/-! ## Bytes and keywords -/

theorem succeeds_charAt (hp : p < bytes.length) : Succeeds (charAt bytes p) fun _ => True := by
  have hget : peek bytes p = some (Char.ofUInt8 bytes[p]) := by
    rw [peek, List.getElem?_eq_getElem hp, Option.map_some]
  rw [charAt_of_peek hget]
  exact succeeds_ok trivial

theorem succeeds_bytesFrom (hp : p ≤ bytes.length) :
    Succeeds (bytesFrom bytes p) fun rest => rest = bytes.drop p := by
  rw [bytesFrom, if_pos hp]
  exact succeeds_ok rfl

theorem succeeds_isJoined (hp : p ≤ bytes.length) :
    Succeeds (isJoined bytes p) fun _ => True := by
  rw [isJoined]
  split
  · exact succeeds_ok trivial
  · next hzero =>
    refine (succeeds_charAt (by omega)).bind fun c _ => ?_
    exact succeeds_ok trivial

/-- A keyword takes its bytes, and they are there. -/
theorem succeeds_atKeyword (keyword : String) (hp : p ≤ bytes.length) :
    Succeeds (atKeyword bytes keyword p) fun found =>
      found = true → Ahead bytes p (p + keyword.utf8ByteSize) := by
  rw [atKeyword]
  refine (succeeds_bytesFrom hp).bind fun rest hrest => ?_
  split
  · next hprefix =>
    have hlength := (List.isPrefixOf_iff_prefix.1 hprefix).length_le
    rw [hrest, List.length_drop, encode_eq_bytesOf, length_bytesOf, byteLength_toList] at hlength
    refine (succeeds_isJoined hp).bind fun joined _ => ?_
    split
    · exact succeeds_ok fun h => absurd h Bool.false_ne_true
    · exact succeeds_ok fun _ => ⟨Nat.le_add_right _ _, by omega⟩
  · exact succeeds_ok fun h => absurd h Bool.false_ne_true

theorem succeeds_startsKeyword (c : Char) (keyword : String) (hp : p ≤ bytes.length) :
    Succeeds (startsKeyword bytes c keyword p) fun found =>
      found = true → Ahead bytes p (p + keyword.utf8ByteSize) := by
  rw [startsKeyword]
  split
  · exact succeeds_atKeyword keyword hp
  · exact succeeds_ok fun h => absurd h Bool.false_ne_true

/-! ## Stepping over -/

theorem succeeds_skipWhile (kind : Char → Bool) (hp : p ≤ bytes.length) :
    Succeeds (skipWhile bytes kind p) (Ahead bytes p) := by
  refine succeeds_loop_ahead (fun q hq => ?_) (fun q a hpq ha => ⟨Nat.le_trans hpq ha.1, ha.2⟩) hp
  cases hany : (peek bytes q).any kind with
  | true =>
    obtain ⟨c, hc, -⟩ := (Option.any_eq_true _ _).1 hany
    rw [kindRound_of_any hany]
    exact succeeds_ok ⟨Nat.le_refl _, peek_lt hc⟩
  | false =>
    rw [kindRound, hany]
    exact succeeds_ok (Ahead.refl hq)

/-- Inside of a literal the cursor may be moved behind the end; it is moved back there. -/
theorem succeeds_skipString (hp : p < bytes.length) :
    Succeeds (skipString bytes p) fun o => Ahead bytes (p + 1) o.2 := by
  rw [skipString]
  refine (succeeds_charAt hp).bind fun quote _ => ?_
  refine succeeds_loop (I := fun q => p + 1 ≤ q) (fun q hq => ?_) (Nat.le_refl _)
  cases hpeek : peek bytes q with
  | none =>
    rw [literalRound, hpeek]
    exact succeeds_ok ⟨Nat.le_min.2 ⟨hq, hp⟩, Nat.min_le_right _ _⟩
  | some c =>
    have hlt := peek_lt hpeek
    rw [literalRound, hpeek]
    dsimp only
    split
    · exact succeeds_ok ⟨⟨hlt, by omega⟩, by omega⟩
    · split
      · exact succeeds_ok ⟨hq, Nat.le_of_lt hlt⟩
      · split
        · exact succeeds_ok ⟨Nat.le_succ_of_le hq, hlt⟩
        · exact succeeds_ok ⟨⟨hlt, Nat.lt_succ_self q⟩, Nat.le_succ_of_le hq⟩

/-- A block comment ends with its mark or with the text. -/
theorem succeeds_loop_blockRound (hp : p + 1 < bytes.length) :
    Succeeds (loop bytes (blockRound bytes) (p + 2)) (Ahead bytes (p + 1)) := by
  have hend {q : Nat} (hq : p + 2 ≤ q) : Ahead bytes (p + 1) (min (q + 2) bytes.length) :=
    ⟨Nat.le_min.2 ⟨by omega, by omega⟩, Nat.min_le_right _ _⟩
  refine succeeds_loop (I := fun q => p + 2 ≤ q) (fun q hq => ?_) (Nat.le_refl _)
  rw [blockRound]
  split
  · next hlt =>
    refine (succeeds_bytesFrom (Nat.le_of_lt hlt)).bind fun rest _ => ?_
    split
    · exact succeeds_ok (hend hq)
    · exact succeeds_ok ⟨⟨hlt, Nat.lt_succ_self q⟩, Nat.le_succ_of_le hq⟩
  · exact succeeds_ok (hend hq)

/-- A comment takes at least the two bytes it begins with. -/
theorem succeeds_skipComment (bytes : List UInt8) (p : Nat) :
    Succeeds (skipComment bytes p) fun next => ∀ q ∈ next, Ahead bytes (p + 1) q := by
  rw [skipComment]
  split
  · exact succeeds_ok fun q hq => absurd hq (Option.not_mem_none q)
  · next hslash =>
    split
    · have hseen : peek bytes p = some '/' := Decidable.not_not.1 hslash
      -- the first byte of the comment is no newline
      have hfirst : (peek bytes p).any (· != '\n') = true := by
        rw [hseen]
        decide
      rw [skipWhile_of_any hfirst]
      refine (succeeds_skipWhile _ (peek_lt hseen)).map fun q hq => ?_
      rintro q' ⟨⟩
      exact hq
    · split
      · next hstar =>
        refine (succeeds_loop_blockRound (peek_lt hstar)).map fun q hq => ?_
        rintro q' ⟨⟩
        exact hq
      · exact succeeds_ok fun q hq => absurd hq (Option.not_mem_none q)

theorem succeeds_triviaRound (hp : p ≤ bytes.length) :
    Succeeds (triviaRound bytes p) (Round.Advances bytes p (Ahead bytes p)) := by
  rw [triviaRound]
  refine (succeeds_skipWhile isBlank hp).bind fun q hq => ?_
  refine (succeeds_skipComment bytes q).bind fun next hnext => ?_
  cases next with
  | none => exact succeeds_ok hq
  | some q' =>
    obtain ⟨hforward, hlength⟩ := hnext q' rfl
    exact succeeds_ok ⟨Nat.le_trans (Nat.succ_le_succ hq.1) hforward, hlength⟩

theorem succeeds_skipTrivia (hp : p ≤ bytes.length) :
    Succeeds (skipTrivia bytes p) (Ahead bytes p) :=
  succeeds_loop_ahead (fun _ hq => succeeds_triviaRound hq)
    (fun _ _ hpq ha => ⟨Nat.le_trans hpq ha.1, ha.2⟩) hp

/-! ## Behind a keyword -/

theorem succeeds_stringLiteral (hp : p ≤ bytes.length) :
    Succeeds (stringLiteral bytes p) (Outcome.Lands bytes p) := by
  cases hpeek : peek bytes p with
  | none =>
    rw [stringLiteral, hpeek]
    exact succeeds_ok (Outcome.lands_none (Ahead.refl hp))
  | some quote =>
    rw [stringLiteral, hpeek]
    dsimp only
    split
    · refine (succeeds_skipString (peek_lt hpeek)).bind fun o ho => ?_
      exact succeeds_ok (Outcome.lands_of_succ ho)
    · exact succeeds_ok (Outcome.lands_none (Ahead.refl hp))

theorem succeeds_argumentAt (hp : p ≤ bytes.length) :
    Succeeds (argumentAt bytes p) (Outcome.Lands bytes p) := by
  rw [argumentAt]
  refine (succeeds_skipTrivia hp).bind fun q hq => ?_
  refine (succeeds_stringLiteral hq.2).bind ?_
  rintro ⟨_ | span, r⟩ ⟨hr, hfound⟩
  · exact succeeds_ok (Outcome.lands_none (hq.trans hr))
  · have hforward : p < r := Nat.lt_of_le_of_lt hq.1 (hfound rfl)
    refine (succeeds_skipTrivia hr.2).bind fun s hs => ?_
    split
    · exact succeeds_ok (Outcome.lands_of_succ ⟨Nat.le_trans hforward hs.1, hs.2⟩)
    · exact succeeds_ok (Outcome.lands_none ((hq.trans hr).trans hs))

theorem succeeds_callArgument (hp : p ≤ bytes.length) :
    Succeeds (callArgument bytes p) (Outcome.Lands bytes p) := by
  rw [callArgument]
  refine (succeeds_skipTrivia hp).bind fun q hq => ?_
  split
  · next hparen =>
    refine (succeeds_argumentAt (peek_lt hparen)).imp fun o ho => ?_
    exact ho.mono (Nat.le_succ_of_le hq.1)
  · exact succeeds_ok (Outcome.lands_none hq)

/-- Behind `from` the cursor need not move: the keyword was stepped over already. -/
theorem succeeds_behindFrom (hp : p ≤ bytes.length) (hqp : q < p) :
    Succeeds (behindFrom bytes p) (Round.Advances bytes q (Outcome.Lands bytes q)) := by
  rw [behindFrom]
  refine (succeeds_skipTrivia hp).bind fun r hr => ?_
  have hqr : q < r := Nat.lt_of_lt_of_le hqp hr.1
  split
  · refine (succeeds_stringLiteral hr.2).bind fun o ho => ?_
    exact succeeds_ok (ho.mono (Nat.le_of_lt hqr))
  · exact succeeds_ok ⟨hqr, hr.2⟩

/-- One piece of a clause. Its limit lies in the text. -/
theorem succeeds_clauseRound {limit : Nat} (hlimit : limit ≤ bytes.length)
    (hp : p ≤ bytes.length) :
    Succeeds (clauseRound bytes limit p) (Round.Advances bytes p (Outcome.Lands bytes p)) := by
  have hstop : Outcome.Lands bytes p ((none, p) : Outcome Span) :=
    Outcome.lands_none (Ahead.refl hp)
  rw [clauseRound]
  split
  · next hlt =>
    have hp' : p < bytes.length := Nat.lt_of_lt_of_le hlt hlimit
    refine (succeeds_skipComment bytes p).bind fun next hnext => ?_
    cases next with
    | some q => exact succeeds_ok (hnext q rfl)
    | none =>
      refine (succeeds_charAt hp').bind fun c _ => ?_
      split
      · exact succeeds_ok hstop
      · refine (succeeds_startsKeyword c "import" hp).bind fun found _ => ?_
        split
        · exact succeeds_ok hstop
        · refine (succeeds_startsKeyword c "export" hp).bind fun found _ => ?_
          split
          · exact succeeds_ok hstop
          · refine (succeeds_startsKeyword c "from" hp).bind fun found hfound => ?_
            split
            · next h => exact succeeds_behindFrom (hfound h).2 (Nat.lt_add_of_pos_right (by decide))
            · exact succeeds_ok ⟨Nat.le_refl _, hp'⟩
  · exact succeeds_ok hstop

theorem succeeds_fromClause (hp : p ≤ bytes.length) :
    Succeeds (fromClause bytes p) (Outcome.Lands bytes p) :=
  succeeds_loop_ahead (fun _ hq => succeeds_clauseRound (Nat.min_le_right _ _) hq)
    (fun _ _ hpq ho => ho.mono hpq) hp

theorem succeeds_importClause (hp : p ≤ bytes.length) :
    Succeeds (importClause bytes p) (Outcome.Lands bytes p) := by
  rw [importClause]
  refine (succeeds_skipTrivia hp).bind fun q hq => ?_
  cases peek bytes q with
  | none => exact succeeds_ok (Outcome.lands_none hq)
  | some c =>
    dsimp only
    split
    · exact (succeeds_callArgument hq.2).map fun o ho => (ho.mono hq.1).as .dynamic
    · split
      · exact (succeeds_stringLiteral hq.2).map fun o ho => (ho.mono hq.1).as .sideEffect
      · exact (succeeds_fromClause hq.2).map fun o ho => (ho.mono hq.1).as .importFrom

/-! ## References -/

/-- Ordinary code: a literal, a form behind its keyword, or a single byte. -/
theorem succeeds_codeRound (c : Char) (hp : p < bytes.length) :
    Succeeds (codeRound bytes c p) (Round.Advances bytes p (Outcome.Lands bytes p)) := by
  have hle := Nat.le_of_lt hp
  rw [codeRound]
  split
  · refine (succeeds_skipString hp).bind fun o ho => ?_
    exact succeeds_ok ho
  · refine (succeeds_startsKeyword c "require" hle).bind fun found hfound => ?_
    split
    · next h =>
      refine ((succeeds_callArgument (hfound h).2).map fun o ho => ho.as .require).map fun o ho => ?_
      exact ho.advances (Nat.lt_add_of_pos_right (by decide))
    · refine (succeeds_startsKeyword c "import" hle).bind fun found hfound => ?_
      split
      · next h =>
        refine (succeeds_importClause (hfound h).2).map fun o ho => ?_
        exact ho.advances (Nat.lt_add_of_pos_right (by decide))
      · refine (succeeds_startsKeyword c "export" hle).bind fun found hfound => ?_
        split
        · next h =>
          refine ((succeeds_fromClause (hfound h).2).map fun o ho => ho.as .exportFrom).map
            fun o ho => ?_
          exact ho.advances (Nat.lt_add_of_pos_right (by decide))
        · exact succeeds_ok ⟨Nat.le_refl _, hp⟩

theorem succeeds_nextRound (hp : p ≤ bytes.length) :
    Succeeds (nextRound bytes p) (Round.Advances bytes p (Outcome.Lands bytes p)) := by
  cases hpeek : peek bytes p with
  | none =>
    rw [nextRound, hpeek]
    exact succeeds_ok (Outcome.lands_none (Ahead.refl hp))
  | some c =>
    rw [nextRound, hpeek]
    refine (succeeds_skipComment bytes p).bind fun next hnext => ?_
    cases next with
    | some q => exact succeeds_ok (hnext q rfl)
    | none => exact succeeds_codeRound c (peek_lt hpeek)

theorem succeeds_nextFound (hp : p ≤ bytes.length) :
    Succeeds (nextFound bytes p) (Outcome.Lands bytes p) :=
  succeeds_loop_ahead (fun _ hq => succeeds_nextRound hq) (fun _ _ hpq ho => ho.mono hpq) hp

/-- Every reference is found further ahead than the one before, and then there are no more. -/
theorem succeeds_collect (hp : p ≤ bytes.length) :
    Succeeds (collect bytes p) fun _ => True := by
  induction hn : bytes.length - p using Nat.strongRecOn generalizing p with
  | ind n ih =>
    obtain ⟨⟨_ | found, next⟩, hnext, hahead, hforward⟩ := succeeds_nextFound hp
    · rw [collect, hnext]
      exact succeeds_ok trivial
    · have hlt : p < next := hforward rfl
      have hlength : next ≤ bytes.length := hahead.2
      rw [collect, hnext]
      dsimp only
      rw [if_pos ⟨Nat.lt_of_lt_of_le hlt hlength, hlt⟩]
      exact (ih (bytes.length - next) (by omega) hlength rfl).map fun _ _ => trivial

end

/-! ## All readings from one place -/

/-- How the readings from one place of some bytes move the cursor. None of them fails: every byte
and every piece that is taken is there, and every loop ends. -/
structure Progress (bytes : List UInt8) (p : Nat) : Prop where
  /-- a round of the search for the next reference -/
  nextRound : Succeeds (nextRound bytes p) (Round.Advances bytes p (Outcome.Lands bytes p))
  /-- a round inside of a clause, whatever its limit is -/
  clauseRound (limit : Nat) (hlimit : limit ≤ bytes.length) :
    Succeeds (clauseRound bytes limit p) (Round.Advances bytes p (Outcome.Lands bytes p))
  /-- a round over blanks and a comment -/
  triviaRound : Succeeds (triviaRound bytes p) (Round.Advances bytes p (Ahead bytes p))
  /-- a comment, if there is one -/
  skipComment : Succeeds (skipComment bytes p) fun next => ∀ q ∈ next, Ahead bytes (p + 1) q
  /-- a literal, closed or not; it is read only where there is a byte for its quote -/
  skipString (hlt : p < bytes.length) :
    Succeeds (skipString bytes p) fun o => Ahead bytes (p + 1) o.2
  /-- blanks and comments -/
  skipTrivia : Succeeds (skipTrivia bytes p) (Ahead bytes p)
  /-- a keyword, which is there whole -/
  atKeyword (keyword : String) : Succeeds (atKeyword bytes keyword p) fun found =>
    found = true → Ahead bytes p (p + keyword.utf8ByteSize)
  /-- a literal that may name a module -/
  stringLiteral : Succeeds (stringLiteral bytes p) (Outcome.Lands bytes p)
  /-- the argument of a call -/
  callArgument : Succeeds (callArgument bytes p) (Outcome.Lands bytes p)
  /-- a clause -/
  fromClause : Succeeds (fromClause bytes p) (Outcome.Lands bytes p)
  /-- what may stand behind `import` -/
  importClause : Succeeds (importClause bytes p) (Outcome.Lands bytes p)
  /-- the next reference -/
  nextFound : Succeeds (nextFound bytes p) (Outcome.Lands bytes p)
  /-- all references from there on -/
  collect : Succeeds (collect bytes p) fun _ => True

/-- **The cursor always gets ahead.** From every place of any bytes, the end included, every
reading succeeds: it leaves the cursor not behind where it was and at most at the end, a round of
a loop that goes on moves it forward, and so does a comment, a literal or a form that is found.
So the references of every text are found, and reading it ends. -/
theorem progress_of_le :
    (∀ (bytes : List UInt8) (p : Nat), p ≤ bytes.length → Progress bytes p) ∧
      ∀ source : String, scan source = .ok (references source) := by
  refine ⟨fun bytes p hp => ?_, scan_eq⟩
  exact {
    nextRound := succeeds_nextRound hp
    clauseRound := fun limit hlimit => succeeds_clauseRound hlimit hp
    triviaRound := succeeds_triviaRound hp
    skipComment := succeeds_skipComment bytes p
    skipString := succeeds_skipString
    skipTrivia := succeeds_skipTrivia hp
    atKeyword := fun keyword => succeeds_atKeyword keyword hp
    stringLiteral := succeeds_stringLiteral hp
    callArgument := succeeds_callArgument hp
    fromClause := succeeds_fromClause hp
    importClause := succeeds_importClause hp
    nextFound := succeeds_nextFound hp
    collect := succeeds_collect hp }

/-- At a literal that is not closed and ends with a backslash. -/
theorem progress_of_le_unclosed :
    8 ≤ (encode "require('a\\").length ∧ Progress (encode "require('a\\") 8 :=
  ⟨by decide +kernel, progress_of_le.1 _ _ (by decide +kernel)⟩

end ModuleLookup.Cursor
