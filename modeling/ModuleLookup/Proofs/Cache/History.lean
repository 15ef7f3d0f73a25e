import Mathlib.Logic.Basic
import ModuleLookup.Proofs.Cache.Transparency

/-!
# Lookups while files change

A session is a disk that may change and a cache that keeps what was found on it. Its
events are lookups of any contexts, changes of any files, and forgetting kept results; they
are listed with the latest first, so that the past of an event is the rest of the list.

A result is given back without a lookup as long as the file it names looks as it did. Other
files are not looked at again, in particular no manifests.

* `lastMade?` — what the latest lookup with a key found that was made in earnest and had a
  result, read off the events alone.
* `Session.lastMade?_of_get?` — a kept result is that one; `Session.get?_eq_lastMade?` — and
  it is kept if nothing was forgotten.
* `SameFile` — what a stamp says about its file; `isValid_take_iff`.
* `Session.answer_now_or_lastMade` — so a lookup gives what it finds now, or what was found
  last, if the file found then looks the same.
* `Session.answer_eq_error_iff` — when a fault is given; `Session.answer_eq_error_again_iff`
  — a manifest that stays broken is reported again unless that file has come back;
  `Session.exists_served_while_broken` — which it may do.
-/

namespace ModuleLookup

/-! ## Events -/

/-- A lookup that somebody asks for. -/
structure Lookup where
  /-- the context -/
  context : Context
  /-- the specifier -/
  specifier : String
  /-- the requesting directory -/
  start : Path

namespace Lookup

/-- What the result is kept under. -/
def key (q : Lookup) : CacheKey :=
  .of q.context q.specifier q.start

/-- What a lookup without a cache finds. -/
def found (q : Lookup) (d : Disk) : Except ManifestFault Resolved :=
  (find q.context q.specifier q.start).run d

end Lookup

/-- What happens in a session. -/
inductive Event where
  /-- a lookup through the cache -/
  | find (q : Lookup)
  /-- files are written, removed or touched: from now on the disk answers like this -/
  | change (d : Disk)
  /-- the results that lead to a file are forgotten -/
  | invalidate (p : Path)
  /-- all results are forgotten -/
  | clear

/-- Whether an event forgets results. -/
def Event.forgets : Event → Bool
  | find _ | change _ => false
  | invalidate _ | clear => true

/-- A disk, and what is kept of the lookups on it. -/
structure Session where
  /-- the disk as it is now -/
  disk : Disk
  /-- what is kept -/
  cache : Cache

namespace Session

/-- A lookup as it runs: its answer, and the cache after it. -/
def look (s : Session) (q : Lookup) : Except ManifestFault Resolved × Option Cache :=
  (findCached q.context (some s.cache) q.specifier q.start).run s.disk

/-- The answer of a lookup. -/
def answer (s : Session) (q : Lookup) : Except ManifestFault Resolved :=
  (s.look q).1

/-- One event. -/
def step (s : Session) : Event → Session
  | .find q => { s with cache := (s.look q).2.getD s.cache }
  | .change d => { s with disk := d }
  | .invalidate p => { s with cache := s.cache.invalidate p }
  | .clear => { s with cache := .empty }

/-- The session after events, of which the latest comes first. Nothing is kept at first. -/
def after (d : Disk) : List Event → Session
  | [] => ⟨d, .empty⟩
  | e :: past => (after d past).step e

/-- The result that is kept under a key and still valid. -/
def hit? (s : Session) (k : CacheKey) : Option CacheEntry :=
  (s.cache.get? k).filter fun e => e.stamp.isValid.run s.disk

/-- What a lookup finds if it is made in earnest, because nothing valid is kept, and has a
result, because no manifest is broken. -/
def made? (s : Session) (q : Lookup) : Option Resolved :=
  match s.hit? q.key with
  | some _ => none
  | none => (q.found s.disk).toOption

end Session

/-- What the latest lookup with a key found that was made and had a result, and the disk on
which it was made. -/
def lastMade? (d : Disk) (k : CacheKey) : List Event → Option (Resolved × Disk)
  | [] => none
  | .find q :: past =>
    match (Session.after d past).made? q with
    | some r => if q.key = k then some (r, (Session.after d past).disk) else lastMade? d k past
    | none => lastMade? d k past
  | .change _ :: past | .invalidate _ :: past | .clear :: past => lastMade? d k past

/-! ## Stamps -/

/-- A file looks as it did: it was there and is there, with the same size, and with the same
age if the age was known. -/
def SameFile (old now : Option Metadata) : Prop :=
  ∃ m n, old = some m ∧ now = some n ∧ n.size = m.size ∧
    ∀ age, m.modified = some age → n.modified = some age

theorem agrees_iff {old now : Option Metadata} :
    Stamp.agrees old now = true ↔ SameFile old now := by
  constructor
  · intro h
    cases old with
    | none => cases h
    | some m =>
      cases now with
      | none => cases h
      | some n =>
        simp only [Stamp.agrees, Bool.and_eq_true, Bool.or_eq_true, beq_iff_eq,
          Option.isNone_iff_eq_none] at h
        obtain ⟨hsize, hage⟩ := h
        refine ⟨m, n, rfl, rfl, hsize.symm, ?_⟩
        intro age hm
        rcases hage with hnone | hsame
        · rw [hnone] at hm
          cases hm
        · rw [← hsame, hm]
  · rintro ⟨m, n, rfl, rfl, hsize, hage⟩
    simp only [Stamp.agrees, Bool.and_eq_true, Bool.or_eq_true, beq_iff_eq,
      Option.isNone_iff_eq_none]
    refine ⟨hsize.symm, ?_⟩
    cases hm : m.modified with
    | none => exact .inl rfl
    | some age => exact .inr (hage age hm).symm

/-- A stamp is valid as long as the file, if there is one, looks as it did when it was
stamped. -/
theorem isValid_take_iff {r : Resolved} {before now : Disk} :
    ((Stamp.take r).run before).isValid.run now = true ↔
      ∀ p, r.path? = some p → SameFile (before (.metadata p)) (now (.metadata p)) := by
  cases hp : r.path? with
  | none =>
    have hstamp : (Stamp.take r).run before = .blank := by
      simp [Stamp.take, hp, Program.run]
    simp [hstamp, Stamp.isValid, Stamp.blank, Program.run]
  | some p =>
    have hstamp : (Stamp.take r).run before = ⟨some p, before (.metadata p)⟩ := by
      simp [Stamp.take, hp, Program.query, Program.run]
    simp [hstamp, Stamp.isValid, Program.query, Program.run, agrees_iff]

/-! ## One event -/

namespace Session

variable {s : Session} {q : Lookup} {k : CacheKey}

/-- What a lookup does: it gives back what is kept and valid, or else what it finds, and
keeps that. -/
theorem look_eq (s : Session) (q : Lookup) :
    s.look q = match s.hit? q.key with
      | some e => (.ok e.resolved, some s.cache)
      | none => match q.found s.disk with
        | .error fault => (.error fault, some s.cache)
        | .ok r => (.ok r, some (s.cache.insert q.key ⟨r, (Stamp.take r).run s.disk⟩)) := by
  have hmade : (lookUpAndKeep q.context q.specifier q.start).alone s.disk s.cache
      = match q.found s.disk with
        | .error fault => (.error fault, s.cache)
        | .ok r => (.ok r, s.cache.insert q.key ⟨r, (Stamp.take r).run s.disk⟩) :=
    alone_lookUpAndKeep s.cache
  have hlook : s.look q = match s.hit? q.key with
      | some e => (.ok e.resolved, some s.cache)
      | none => (((lookUpAndKeep q.context q.specifier q.start).alone s.disk s.cache).1,
          some ((lookUpAndKeep q.context q.specifier q.start).alone s.disk s.cache).2) := by
    rw [look, run_findCached, lookUp, Work.alone, hit?, Lookup.key]
    cases s.cache.get? (CacheKey.of q.context q.specifier q.start) with
    | none => rfl
    | some e =>
      simp only [Work.alone_bind, Work.alone_ofProgram, Option.filter]
      by_cases hvalid : e.stamp.isValid.run s.disk = true
      · simp only [if_pos hvalid]
        rfl
      · simp only [if_neg hvalid]
  rw [hlook, hmade]
  cases s.hit? q.key with
  | some e => rfl
  | none => cases q.found s.disk with
    | error fault => rfl
    | ok r => rfl

theorem hit?_eq_some_iff {e : CacheEntry} :
    s.hit? k = some e ↔ s.cache.get? k = some e ∧ e.stamp.isValid.run s.disk = true :=
  Option.filter_eq_some_iff

theorem made?_eq_some_iff {r : Resolved} :
    s.made? q = some r ↔ s.hit? q.key = none ∧ q.found s.disk = .ok r := by
  rw [made?]
  cases s.hit? q.key with
  | some e => simp
  | none => cases q.found s.disk with
    | error fault => simp [Except.toOption]
    | ok found => simp [Except.toOption]

/-- The answer of a lookup is what is kept and valid, or else what it finds. -/
theorem answer_eq (s : Session) (q : Lookup) :
    s.answer q = match s.hit? q.key with
      | some e => .ok e.resolved
      | none => q.found s.disk := by
  rw [answer, look_eq]
  cases s.hit? q.key with
  | some e => rfl
  | none => cases q.found s.disk with
    | error fault => rfl
    | ok r => rfl

theorem answer_of_hit?_eq_none (h : s.hit? q.key = none) : s.answer q = q.found s.disk := by
  rw [answer_eq, h]

/-- A lookup that was made is kept, and nothing else changes. -/
theorem get?_step_find (s : Session) (q : Lookup) (k : CacheKey) :
    (s.step (.find q)).cache.get? k = match s.made? q with
      | some r =>
        if q.key = k then some ⟨r, (Stamp.take r).run s.disk⟩ else s.cache.get? k
      | none => s.cache.get? k := by
  rw [step, look_eq, made?]
  cases s.hit? q.key with
  | some e => rfl
  | none => cases q.found s.disk with
    | error fault => rfl
    | ok r => simp [Except.toOption, Cache.get?_insert, eq_comm]

/-- Forgetting keeps nothing that was not kept. -/
theorem get?_of_get?_invalidate {c : Cache} {p : Path} {e : CacheEntry}
    (h : (c.invalidate p).get? k = some e) : c.get? k = some e := by
  rw [Cache.get?_invalidate] at h
  split at h
  · cases h
  · exact h

/-! ## Whole sessions -/

/-- **A kept result is the last one made** with its key, stamped on the disk on which it was
made. -/
theorem lastMade?_of_get? {d : Disk} {past : List Event} {e : CacheEntry}
    (h : (after d past).cache.get? k = some e) :
    ∃ before, lastMade? d k past = some (e.resolved, before) ∧
      e.stamp = (Stamp.take e.resolved).run before := by
  induction past with
  | nil => cases h
  | cons event past ih =>
    rw [after] at h
    cases event with
    | find q =>
      rw [get?_step_find] at h
      rw [lastMade?]
      cases hmade : (after d past).made? q with
      | none =>
        rw [hmade] at h
        exact ih h
      | some r =>
        rw [hmade] at h
        by_cases hk : q.key = k
        · simp only [if_pos hk, Option.some.injEq] at h ⊢
          subst h
          exact ⟨_, rfl, rfl⟩
        · simp only [if_neg hk] at h ⊢
          exact ih h
    | change now => exact ih h
    | invalidate p => exact ih (get?_of_get?_invalidate h)
    | clear => cases h

/-- If nothing is forgotten, the last result made is kept. -/
theorem get?_eq_lastMade? {d : Disk} {past : List Event} (hquiet : ∀ e ∈ past, e.forgets = false) :
    (after d past).cache.get? k
      = (lastMade? d k past).map fun m => ⟨m.1, (Stamp.take m.1).run m.2⟩ := by
  induction past with
  | nil => rfl
  | cons event past ih =>
    have hpast := ih fun e he => hquiet e (List.mem_cons_of_mem event he)
    have hevent := hquiet event List.mem_cons_self
    cases event with
    | find q =>
      rw [after, get?_step_find, lastMade?, hpast]
      cases (after d past).made? q with
      | none => rfl
      | some r =>
        by_cases hk : q.key = k
        · simp [hk]
        · simp [hk]
    | change now => exact hpast
    | invalidate p => cases hevent
    | clear => cases hevent

/-- **A lookup gives what it finds now, or what was found last.** A fault is always a fault
now. In place of what would be found now, only that can be given back which the latest
lookup with this key found that was made, and only if its file looks as it did then; a
result whose file looks different is never given back. -/
theorem answer_now_or_lastMade (d : Disk) (past : List Event) (q : Lookup) :
    (∀ fault, (after d past).answer q = .error fault →
        q.found (after d past).disk = .error fault) ∧
      (∀ r, (after d past).answer q = .ok r →
        q.found (after d past).disk = .ok r ∨
          ∃ before, lastMade? d q.key past = some (r, before) ∧
            ∀ p, r.path? = some p →
              SameFile (before (.metadata p)) ((after d past).disk (.metadata p))) ∧
      (∀ r before p, lastMade? d q.key past = some (r, before) → r.path? = some p →
        ¬SameFile (before (.metadata p)) ((after d past).disk (.metadata p)) →
        (after d past).answer q = q.found (after d past).disk) := by
  have hkept {e : CacheEntry} (he : (after d past).hit? q.key = some e) :
      ∃ before, lastMade? d q.key past = some (e.resolved, before) ∧
        ∀ p, e.resolved.path? = some p →
          SameFile (before (.metadata p)) ((after d past).disk (.metadata p)) := by
    obtain ⟨hget, hvalid⟩ := hit?_eq_some_iff.1 he
    obtain ⟨before, hlast, hstamp⟩ := lastMade?_of_get? hget
    rw [hstamp] at hvalid
    exact ⟨before, hlast, isValid_take_iff.1 hvalid⟩
  rw [answer_eq]
  cases hhit : (after d past).hit? q.key with
  | none =>
    exact ⟨fun _ h => h, fun _ h => .inl h, fun _ _ _ _ _ _ => rfl⟩
  | some e =>
    obtain ⟨before, hlast, hsame⟩ := hkept hhit
    refine ⟨?_, ?_, ?_⟩
    · intro fault h
      cases h
    · intro r h
      obtain rfl := Except.ok.inj h
      exact .inr ⟨before, hlast, hsame⟩
    · intro r other p hr hp hdiffers
      rw [hlast] at hr
      obtain ⟨rfl, rfl⟩ := Prod.mk.inj (Option.some.inj hr)
      exact absurd (hsame p hp) hdiffers

/-! ## Manifests that stay broken -/

/-- Where a lookup would find a fault, it gives that fault unless the result made last has
no file or a file that looks as it did. -/
theorem answer_eq_error_iff {d : Disk} {past : List Event} {fault : ManifestFault}
    (hquiet : ∀ e ∈ past, e.forgets = false)
    (hnow : q.found (after d past).disk = .error fault) :
    (after d past).answer q = .error fault ↔
      ∀ r before, lastMade? d q.key past = some (r, before) →
        ∃ p, r.path? = some p ∧
          ¬SameFile (before (.metadata p)) ((after d past).disk (.metadata p)) := by
  have hget : (after d past).cache.get? q.key = _ := get?_eq_lastMade? hquiet
  constructor
  · intro h r before hlast
    rw [hlast, Option.map_some] at hget
    -- a valid stamp would have made the answer a result
    have hstale : ¬((Stamp.take r).run before).isValid.run (after d past).disk = true := by
      intro hvalid
      rw [answer_eq, hit?_eq_some_iff.2 ⟨hget, hvalid⟩] at h
      cases h
    rw [isValid_take_iff, not_forall] at hstale
    obtain ⟨p, hp⟩ := hstale
    exact ⟨p, Classical.not_imp.1 hp⟩
  · intro h
    have hhit : (after d past).hit? q.key = none := by
      cases hhit : (after d past).hit? q.key with
      | none => rfl
      | some e =>
        obtain ⟨hkept, hvalid⟩ := hit?_eq_some_iff.1 hhit
        obtain ⟨before, hlast, hstamp⟩ := lastMade?_of_get? hkept
        obtain ⟨p, hp, hdiffers⟩ := h _ _ hlast
        rw [hstamp] at hvalid
        exact absurd (isValid_take_iff.1 hvalid p hp) hdiffers
    rw [answer_of_hit?_eq_none hhit, hnow]

/-- During some later events every lookup with a key finds a fault. -/
def BrokenDuring (d : Disk) (k : CacheKey) (later past : List Event) : Prop :=
  ∀ ahead q behind, later = ahead ++ .find q :: behind → q.key = k →
    ∃ fault, q.found (after d (behind ++ past)).disk = .error fault

/-- What was made last is still what it was as long as there are only faults. -/
theorem lastMade?_append_of_broken {d : Disk} {later past : List Event}
    (hbroken : BrokenDuring d k later past) :
    lastMade? d k (later ++ past) = lastMade? d k past := by
  induction later with
  | nil => rfl
  | cons event later ih =>
    have hlater : lastMade? d k (later ++ past) = lastMade? d k past := by
      refine ih fun ahead q behind hsplit => ?_
      exact hbroken (event :: ahead) q behind (by rw [hsplit, List.cons_append])
    rw [List.cons_append]
    cases event with
    | find q =>
      rw [lastMade?]
      cases hmade : (after d (later ++ past)).made? q with
      | none => exact hlater
      | some r =>
        have hk : q.key ≠ k := by
          intro hk
          obtain ⟨fault, hfault⟩ := hbroken [] q later rfl hk
          rw [(made?_eq_some_iff.1 hmade).2] at hfault
          cases hfault
        simp only [if_neg hk]
        exact hlater
    | change now => exact hlater
    | invalidate p => exact hlater
    | clear => exact hlater

theorem brokenDuring_find {d : Disk} {past : List Event}
    (h : ∃ fault, q.found (after d past).disk = .error fault) :
    BrokenDuring d k [.find q] past := by
  intro ahead other behind hsplit _
  rcases List.append_eq_cons_iff.1 hsplit.symm with ⟨rfl, hcons⟩ | ⟨_, rfl, hnil⟩
  · obtain ⟨⟨⟩, rfl⟩ := List.cons.inj hcons
    exact h
  · simp at hnil

/-- **A broken manifest is reported again** on every later lookup as long as it is broken,
unless the file that was found last with this key, before the manifest was broken, has come
back and looks as it did then. -/
theorem answer_eq_error_again_iff {d : Disk} {later past : List Event} {first q : Lookup}
    {fault₀ fault : ManifestFault} (hkey : q.key = first.key)
    (hquiet : ∀ e ∈ later ++ past, e.forgets = false)
    (hfirst : (after d past).answer first = .error fault₀)
    (hbroken : BrokenDuring d q.key later (.find first :: past))
    (hnow : q.found (after d (later ++ .find first :: past)).disk = .error fault) :
    (after d (later ++ .find first :: past)).answer q = .error fault ↔
      ∀ r before p, lastMade? d q.key past = some (r, before) → r.path? = some p →
        ¬SameFile (before (.metadata p))
          ((after d (later ++ .find first :: past)).disk (.metadata p)) := by
  have hfound : first.found (after d past).disk = .error fault₀ :=
    (answer_now_or_lastMade d past first).1 fault₀ hfirst
  have hquietPast : ∀ e ∈ past, e.forgets = false := fun e he =>
    hquiet e (List.mem_append_right later he)
  have hquietAll : ∀ e ∈ later ++ .find first :: past, e.forgets = false := by
    intro e he
    rcases List.mem_append.1 he with he | he
    · exact hquiet e (List.mem_append_left past he)
    · rcases List.mem_cons.1 he with rfl | he
      · rfl
      · exact hquietPast e he
  -- the first lookup had no result either, so the last result is from before it
  have hlast : lastMade? d q.key (later ++ .find first :: past) = lastMade? d q.key past := by
    rw [lastMade?_append_of_broken hbroken]
    exact lastMade?_append_of_broken (brokenDuring_find ⟨fault₀, hfound⟩)
  rw [answer_eq_error_iff hquietAll hnow, hlast]
  constructor
  · intro h r before p hr hp
    obtain ⟨file, hfile, hdiffers⟩ := h r before hr
    rw [hp] at hfile
    obtain rfl := Option.some.inj hfile
    exact hdiffers
  · intro h r before hr
    -- a result without a file would have been given back instead of the first fault
    obtain ⟨p, hp, -⟩ := (answer_eq_error_iff hquietPast hfound).1 hfirst r before (hkey ▸ hr)
    exact ⟨p, hp, h r before p hr hp⟩

/-! ### A package with and without its parts -/

/-- The index file of a package, which is meant as long as there is no manifest. -/
def indexOnly : Memory :=
  Memory.empty.write ⟨"/p/node_modules/pkg/index.js"⟩ ⟨"x", none, none, true⟩

/-- The manifest of the package, without a text. -/
def manifestOnly : Memory :=
  Memory.empty.write ⟨"/p/node_modules/pkg/package.json"⟩ ⟨"", none, none, true⟩

/-- The manifest, and the index file as it was. -/
def manifestAndIndex : Memory :=
  manifestOnly.write ⟨"/p/node_modules/pkg/index.js"⟩ ⟨"x", none, none, true⟩

/-- A lookup of the package. -/
def packageLookup : Lookup := ⟨.withDefaults ⟨"/p"⟩, "pkg", ⟨"/p"⟩⟩

theorem exists_error_of_toOption_eq {x : Except ManifestFault Resolved} (h : x.toOption = none) :
    ∃ fault, x = .error fault := by
  cases x with
  | error fault => exact ⟨fault, rfl⟩
  | ok r => cases h

theorem found_indexOnly :
    packageLookup.found indexOnly.disk = .ok (.file ⟨"/p/node_modules/pkg/index.js"⟩) :=
  eq_ok_of_toOption_eq (by decide +kernel)

theorem exists_found_manifestOnly :
    ∃ fault, packageLookup.found manifestOnly.disk = .error fault :=
  exists_error_of_toOption_eq (by decide +kernel)

/-- The index file was found, then it was taken away and the manifest written. -/
def packageTurned : List Event :=
  [.change manifestOnly.disk, .find packageLookup]

theorem lastMade?_packageTurned :
    lastMade? indexOnly.disk packageLookup.key packageTurned
      = some (.file ⟨"/p/node_modules/pkg/index.js"⟩, indexOnly.disk) := by
  have hmade : (after indexOnly.disk []).made? packageLookup
      = some (.file ⟨"/p/node_modules/pkg/index.js"⟩) :=
    made?_eq_some_iff.2 ⟨rfl, found_indexOnly⟩
  rw [packageTurned, lastMade?, lastMade?, hmade]
  simp [after]

theorem not_sameFile_manifestOnly {old : Option Metadata} :
    ¬SameFile old (manifestOnly.disk (.metadata ⟨"/p/node_modules/pkg/index.js"⟩)) := by
  rintro ⟨m, n, -, hn, -⟩
  have hgone : manifestOnly.disk (.metadata ⟨"/p/node_modules/pkg/index.js"⟩) = none := by
    decide +kernel
  rw [hgone] at hn
  cases hn

theorem exists_answer_packageTurned :
    ∃ fault, (after indexOnly.disk packageTurned).answer packageLookup = .error fault := by
  obtain ⟨fault, hfault⟩ := exists_found_manifestOnly
  refine ⟨fault, (answer_eq_error_iff (by simp [packageTurned, Event.forgets]) hfault).2 ?_⟩
  intro r before hlast
  rw [lastMade?_packageTurned] at hlast
  obtain ⟨rfl, rfl⟩ := Prod.mk.inj (Option.some.inj hlast)
  exact ⟨_, rfl, not_sameFile_manifestOnly⟩

/-- While the index file stays away, the fault is given again and again. -/
theorem answer_eq_error_again_package :
    ∃ fault, (after indexOnly.disk ([.find packageLookup] ++ .find packageLookup ::
      packageTurned)).answer packageLookup = .error fault := by
  obtain ⟨fault, hfault⟩ := exists_found_manifestOnly
  obtain ⟨fault₀, hfault₀⟩ := exists_answer_packageTurned
  refine ⟨fault, (answer_eq_error_again_iff rfl (by simp [packageTurned, Event.forgets]) hfault₀
    (brokenDuring_find ⟨fault, hfault⟩) hfault).2 ?_⟩
  intro r before p hlast hp
  rw [lastMade?_packageTurned] at hlast
  obtain ⟨rfl, rfl⟩ := Prod.mk.inj (Option.some.inj hlast)
  obtain rfl := Option.some.inj hp
  exact not_sameFile_manifestOnly

/-- Not every fault is given again: when the index file comes back, it is given as the
result, though the manifest is still broken. -/
theorem exists_served_while_broken :
    (∃ fault, (after indexOnly.disk packageTurned).answer packageLookup = .error fault) ∧
      (∃ fault, packageLookup.found manifestAndIndex.disk = .error fault) ∧
      (after indexOnly.disk (.change manifestAndIndex.disk :: .find packageLookup ::
          packageTurned)).answer packageLookup
        = .ok (.file ⟨"/p/node_modules/pkg/index.js"⟩) := by
  refine ⟨exists_answer_packageTurned, exists_error_of_toOption_eq (by decide +kernel), ?_⟩
  have hlast : lastMade? indexOnly.disk packageLookup.key
      ([.find packageLookup] ++ packageTurned)
        = some (.file ⟨"/p/node_modules/pkg/index.js"⟩, indexOnly.disk) := by
    rw [lastMade?_append_of_broken (brokenDuring_find exists_found_manifestOnly)]
    exact lastMade?_packageTurned
  have hkept : (after indexOnly.disk (.change manifestAndIndex.disk :: .find packageLookup ::
      packageTurned)).cache.get? packageLookup.key = _ :=
    get?_eq_lastMade? (by simp [packageTurned, Event.forgets])
  rw [lastMade?, show lastMade? _ _ (.find packageLookup :: packageTurned) = _ from hlast]
    at hkept
  have hvalid : ∀ p, (Resolved.file ⟨"/p/node_modules/pkg/index.js"⟩).path? = some p →
      SameFile (indexOnly.disk (.metadata p)) (manifestAndIndex.disk (.metadata p)) := by
    rintro p ⟨⟩
    exact ⟨⟨1, none⟩, ⟨1, none⟩, by decide +kernel, by decide +kernel, rfl, by simp⟩
  rw [answer_eq, hit?_eq_some_iff.2 ⟨hkept, isValid_take_iff.2 hvalid⟩]

end Session

end ModuleLookup
