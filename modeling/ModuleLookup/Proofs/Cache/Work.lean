import ModuleLookup.Cache.Basic

/-!
# Work that shares a cache

Several lookups may use one cache at the same time. Each is a piece of `Work`: it puts
questions to a disk that does not change, looks into the cache and keeps results there,
and each of these is one step. A `Pool` holds a cache and pieces of work that take turns
in any order.

* `Work.alone` — work from its first step to its last while nobody else has a turn.
* `Gives` — whatever correct results it meets in the cache, the work comes to one answer
  within so many steps, and keeps only correct results.
* `Gives.step`, `Gives.bind` — one step on, and one piece of work after another.
* `Pool.Ready.run` — the invariant of a pool: a correct cache, and work that gives its
  answers. It holds before the first turn by `Pool.ready_start`; `Pool.Ready.eq_of_done` and
  `Pool.Ready.done_of_eq_zero` are what it means at the end.
-/

namespace ModuleLookup

/-- Work that shares a cache with other work. -/
inductive Work (α : Type) where
  /-- the end -/
  | done (a : α)
  /-- a question to the disk -/
  | ask (q : Query) (next : q.Answer → Work α)
  /-- a look into the cache -/
  | look (k : CacheKey) (next : Option CacheEntry → Work α)
  /-- a result kept in the cache -/
  | keep (k : CacheKey) (e : CacheEntry) (next : Work α)

namespace Work

variable {α β : Type}

/-- Work, and then other work that depends on its answer. -/
protected def bind : Work α → (α → Work β) → Work β
  | done a, f => f a
  | ask q next, f => ask q fun answer => (next answer).bind f
  | look k next, f => look k fun e => (next e).bind f
  | keep k e next, f => keep k e (next.bind f)

instance : Monad Work where
  pure := done
  bind := Work.bind

/-- A program as work that does not use the cache. What it notes is left out. -/
def ofProgram : Program α → Work α
  | .done a => done a
  | .ask q next => ask q fun answer => ofProgram (next answer)
  | .note _ next => ofProgram next

/-- One step, and the cache after it. -/
def step (d : Disk) : Work α → Cache → Work α × Cache
  | done a, c => (done a, c)
  | ask q next, c => (next (d q), c)
  | look k next, c => (next (c.get? k), c)
  | keep k e next, c => (next, c.insert k e)

/-- All steps in a row, and the cache after them. -/
def alone (d : Disk) : Work α → Cache → α × Cache
  | done a, c => (a, c)
  | ask q next, c => (next (d q)).alone d c
  | look k next, c => (next (c.get? k)).alone d c
  | keep k e next, c => next.alone d (c.insert k e)

theorem alone_bind (d : Disk) (w : Work α) (f : α → Work β) (c : Cache) :
    (w >>= f).alone d c = (f (w.alone d c).1).alone d (w.alone d c).2 := by
  induction w generalizing c with
  | done a => rfl
  | ask q next ih => exact ih (d q) c
  | look k next ih => exact ih (c.get? k) c
  | keep k e next ih => exact ih (c.insert k e)

theorem alone_ofProgram (d : Disk) (p : Program α) (c : Cache) :
    (ofProgram p).alone d c = (p.run d, c) := by
  induction p with
  | done a => rfl
  | ask q next ih => exact ih (d q)
  | note n next ih => exact ih

end Work

/-! ## Correct caches -/

/-- Every result in the cache is right for its key. -/
def Cache.Sound (Right : CacheKey → Resolved → Prop) (c : Cache) : Prop :=
  ∀ k e, c.get? k = some e → Right k e.resolved

section Sound

variable {Right : CacheKey → Resolved → Prop}

theorem Cache.sound_empty : Cache.empty.Sound Right := by
  intro k e h
  cases h

theorem Cache.Sound.insert {c : Cache} (hc : c.Sound Right) {k : CacheKey} {e : CacheEntry}
    (he : Right k e.resolved) : (c.insert k e).Sound Right := by
  intro l f hf
  rw [Cache.get?_insert] at hf
  by_cases hl : l = k
  · subst hl
    rw [if_pos rfl] at hf
    rw [← Option.some.inj hf]
    exact he
  · rw [if_neg hl] at hf
    exact hc l f hf

end Sound

/-! ## Work with one answer -/

/-- Work gives an answer within a number of steps: whatever right results it meets in
the cache the answer is the same, and what it keeps is right. -/
inductive Gives {α : Type} (d : Disk) (Right : CacheKey → Resolved → Prop) :
    Nat → Work α → α → Prop where
  /-- finished work gives what it ended with -/
  | done (n : Nat) (a : α) : Gives d Right n (.done a) a
  /-- the disk has one answer -/
  | ask {n : Nat} {q : Query} {next : q.Answer → Work α} {a : α}
      (h : Gives d Right n (next (d q)) a) : Gives d Right (n + 1) (.ask q next) a
  /-- the cache has a right result or none -/
  | look {n : Nat} {k : CacheKey} {next : Option CacheEntry → Work α} {a : α}
      (h : ∀ hit, (∀ e ∈ hit, Right k e.resolved) → Gives d Right n (next hit) a) :
      Gives d Right (n + 1) (.look k next) a
  /-- what is kept is right -/
  | keep {n : Nat} {k : CacheKey} {e : CacheEntry} {next : Work α} {a : α}
      (he : Right k e.resolved) (h : Gives d Right n next a) :
      Gives d Right (n + 1) (.keep k e next) a

namespace Gives

variable {α β : Type} {d : Disk} {Right : CacheKey → Resolved → Prop}

/-- More steps do no harm. -/
theorem mono {m n : Nat} {w : Work α} {a : α} (h : Gives d Right m w a) (hmn : m ≤ n) :
    Gives d Right n w a := by
  induction h generalizing n with
  | done _ a => exact done n a
  | ask _ ih =>
    obtain ⟨n, rfl⟩ := Nat.exists_eq_add_one_of_ne_zero (Nat.ne_zero_of_lt hmn)
    exact ask (ih (Nat.le_of_succ_le_succ hmn))
  | look _ ih =>
    obtain ⟨n, rfl⟩ := Nat.exists_eq_add_one_of_ne_zero (Nat.ne_zero_of_lt hmn)
    exact look fun hit hhit => ih hit hhit (Nat.le_of_succ_le_succ hmn)
  | keep he _ ih =>
    obtain ⟨n, rfl⟩ := Nat.exists_eq_add_one_of_ne_zero (Nat.ne_zero_of_lt hmn)
    exact keep he (ih (Nat.le_of_succ_le_succ hmn))

/-- Work after work: the steps add up. -/
theorem bind {m n : Nat} {w : Work α} {f : α → Work β} {a : α} {b : β}
    (hw : Gives d Right m w a) (hf : Gives d Right n (f a) b) :
    Gives d Right (m + n) (w >>= f) b := by
  induction hw with
  | done m a => exact hf.mono (Nat.le_add_left n m)
  | ask _ ih =>
    rw [Nat.add_right_comm]
    exact ask (ih hf)
  | look _ ih =>
    rw [Nat.add_right_comm]
    exact look fun hit hhit => ih hit hhit hf
  | keep he _ ih =>
    rw [Nat.add_right_comm]
    exact keep he (ih hf)

/-- A program gives its value, one step for each question. -/
theorem ofProgram (p : Program α) :
    Gives d Right (p.asked d).length (Work.ofProgram p) (p.run d) := by
  induction p with
  | done a => exact done _ a
  | ask q next ih => exact ask (ih (d q))
  | note n next ih => exact ih

/-- **One step**: the work is nearer to its answer, and the cache stays right. -/
theorem step {n : Nat} {w : Work α} {a : α} {c : Cache} (h : Gives d Right n w a)
    (hc : c.Sound Right) :
    Gives d Right (n - 1) (w.step d c).1 a ∧ (w.step d c).2.Sound Right := by
  cases h with
  | done n a => exact ⟨done _ a, hc⟩
  | ask h => exact ⟨h, hc⟩
  | look h => exact ⟨h _ fun e he => hc _ e he, hc⟩
  | keep he h => exact ⟨h, hc.insert he⟩

/-- Alone, too, the work comes to its answer. -/
theorem alone {n : Nat} {w : Work α} {a : α} (h : Gives d Right n w a) {c : Cache}
    (hc : c.Sound Right) : (w.alone d c).1 = a ∧ (w.alone d c).2.Sound Right := by
  induction h generalizing c with
  | done n a => exact ⟨rfl, hc⟩
  | ask _ ih => exact ih hc
  | look _ ih => exact ih _ (fun e he => hc _ e he) hc
  | keep he _ ih => exact ih (hc.insert he)

theorem eq_of_done {n : Nat} {a b : α} (h : Gives d Right n (.done b) a) : b = a := by
  cases h
  rfl

theorem eq_done {w : Work α} {a : α} (h : Gives d Right 0 w a) : w = .done a := by
  cases h
  rfl

end Gives

/-! ## Taking turns -/

/-- Pieces of work around one cache. -/
structure Pool (α : Type) where
  /-- what they share -/
  cache : Cache
  /-- the work, each piece as far as it has come -/
  works : List (Work α)

namespace Pool

variable {α : Type}

/-- Work that has not begun, around an empty cache. -/
def start (works : List (Work α)) : Pool α := ⟨.empty, works⟩

/-- One step of one piece of work. -/
def turn (d : Disk) (p : Pool α) (i : Nat) : Pool α :=
  match p.works[i]? with
  | none => p
  | some w => ⟨(w.step d p.cache).2, p.works.set i (w.step d p.cache).1⟩

/-- Steps in the order in which the pieces of work have their turns. -/
def run (d : Disk) (p : Pool α) (turns : List Nat) : Pool α :=
  turns.foldl (turn d) p

/-- The invariant of a pool: the cache is right, and each piece of work gives its answer
within its number of steps. -/
structure Ready (d : Disk) (Right : CacheKey → Resolved → Prop) (steps : Nat → Nat)
    (answers : List α) (p : Pool α) : Prop where
  /-- the cache is right -/
  sound : p.cache.Sound Right
  /-- there is one answer for each piece of work -/
  length_eq : p.works.length = answers.length
  /-- the work gives the answers -/
  gives : ∀ (i : Nat) (w : Work α) (a : α), p.works[i]? = some w → answers[i]? = some a →
    Gives d Right (steps i) w a

namespace Ready

variable {d : Disk} {Right : CacheKey → Resolved → Prop} {steps : Nat → Nat}
  {answers : List α} {p : Pool α}

/-- **One turn** keeps the invariant, with one step less for whose turn it was. -/
theorem turn (h : p.Ready d Right steps answers) (i : Nat) :
    (p.turn d i).Ready d Right (fun j => steps j - [i].count j) answers := by
  rw [Pool.turn]
  rcases hi : p.works[i]? with _ | w
  · -- nobody's turn: nothing changes
    refine ⟨h.sound, h.length_eq, fun j v a hj ha => ?_⟩
    have hne : i ≠ j := by
      rintro rfl
      rw [hi] at hj
      cases hj
    rw [List.count_cons_of_ne hne, List.count_nil, Nat.sub_zero]
    exact h.gives j v a hj ha
  · have hlt : i < p.works.length := (List.getElem?_eq_some_iff.1 hi).1
    have hans : i < answers.length := h.length_eq ▸ hlt
    have hw := (h.gives i w _ hi (List.getElem?_eq_getElem hans)).step h.sound
    refine ⟨hw.2, by rw [List.length_set, h.length_eq], fun j v a hj ha => ?_⟩
    -- whose turn it was is one step further, the others have only met another right cache
    by_cases hij : i = j
    · subst hij
      rw [List.getElem?_set_self hlt] at hj
      rw [List.getElem?_eq_getElem hans] at ha
      obtain rfl := Option.some.inj hj
      obtain rfl := Option.some.inj ha
      rw [List.count_singleton_self]
      exact hw.1
    · rw [List.getElem?_set_ne hij] at hj
      rw [List.count_cons_of_ne hij, List.count_nil, Nat.sub_zero]
      exact h.gives j v a hj ha

/-- **Turns in any order** keep the invariant. -/
theorem run (h : p.Ready d Right steps answers) (turns : List Nat) :
    (p.run d turns).Ready d Right (fun j => steps j - turns.count j) answers := by
  induction turns generalizing p steps with
  | nil => exact h
  | cons i turns ih =>
    have hturns := ih (h.turn i)
    simp only [Nat.sub_sub, ← List.count_append, List.singleton_append] at hturns
    exact hturns

/-- Finished work has given its answer. -/
theorem eq_of_done (h : p.Ready d Right steps answers) {i : Nat} {a b : α}
    (hi : p.works[i]? = some (.done b)) (ha : answers[i]? = some a) : b = a :=
  (h.gives i _ a hi ha).eq_of_done

/-- Work without steps left is finished. -/
theorem done_of_eq_zero (h : p.Ready d Right steps answers) {i : Nat} {a : α}
    (hsteps : steps i = 0) (ha : answers[i]? = some a) : p.works[i]? = some (.done a) := by
  have hans : i < answers.length := (List.getElem?_eq_some_iff.1 ha).1
  have hlt : i < p.works.length := h.length_eq ▸ hans
  have hw := h.gives i _ a (List.getElem?_eq_getElem hlt) ha
  rw [hsteps] at hw
  rw [List.getElem?_eq_getElem hlt, hw.eq_done]

/-- When all work is finished, its answers are the answers. -/
theorem eq_of_works_eq (h : p.Ready d Right steps answers) {found : List α}
    (hw : p.works = found.map Work.done) : found = answers := by
  have hlen : found.length = answers.length := by
    rw [← h.length_eq, hw, List.length_map]
  refine List.ext_getElem hlen fun i hf ha => ?_
  refine h.eq_of_done (i := i) ?_ (List.getElem?_eq_getElem ha)
  rw [hw, List.getElem?_map, List.getElem?_eq_getElem hf, Option.map_some]

/-- When no steps are left, all work is finished. -/
theorem works_eq (h : p.Ready d Right steps answers)
    (hsteps : ∀ i < answers.length, steps i = 0) : p.works = answers.map Work.done := by
  refine List.ext_getElem? fun i => ?_
  rw [List.getElem?_map]
  rcases ha : answers[i]? with _ | a
  · rw [List.getElem?_eq_none_iff, ← h.length_eq] at ha
    rw [List.getElem?_eq_none_iff.2 ha, Option.map_none]
  · rw [Option.map_some]
    exact h.done_of_eq_zero (hsteps i (List.getElem?_eq_some_iff.1 ha).1) ha

end Ready

/-- Work that has not begun is ready around an empty cache. -/
theorem ready_start {ι : Type} {d : Disk} {Right : CacheKey → Resolved → Prop} {xs : List ι}
    {work : ι → Work α} {answer : ι → α} {steps : ι → Nat}
    (h : ∀ x ∈ xs, Gives d Right (steps x) (work x) (answer x)) :
    (start (xs.map work)).Ready d Right (fun i => xs[i]?.elim 0 steps) (xs.map answer) := by
  refine ⟨Cache.sound_empty, ?_, fun i w a hw ha => ?_⟩
  · rw [start, List.length_map, List.length_map]
  · rw [start, List.getElem?_map] at hw
    rw [List.getElem?_map] at ha
    rcases hx : xs[i]? with _ | x
    · rw [hx] at hw
      cases hw
    · rw [hx] at hw ha
      obtain rfl := Option.some.inj hw
      obtain rfl := Option.some.inj ha
      exact h x (List.mem_of_getElem? hx)

end Pool

end ModuleLookup
