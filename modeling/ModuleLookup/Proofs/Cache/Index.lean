import Mathlib.Data.Set.Card
import ModuleLookup.Cache.Basic

/-!
# The way back from files

A cache notes for each file the keys of the results that lead to it. Keeping a result has to
move its key there: out of the file that the old result led to, into the file that the new one
leads to, and a file whose last key is gone must go as well. Otherwise a file could later be
forgotten with too many results or too few.

* `CacheChange`, `Cache.after` — what can be done to a cache, and the cache after any row of
  such changes.
* `Cache.Linked` — the invariant: a key is noted for a file just when its result leads there,
  and no file is noted without a key. `Linked.insert` and `Linked.invalidate` are one change;
  `linked_after` is any number of them.
* `Cache.lastKept?` — what is kept under a key, read off the changes alone;
  `get?_after`.
* `Cache.after_exact` — so forgetting a file forgets exactly the results that lead to it, as
  many as keys are noted for it, and leaves everything else as it was.
-/

namespace ModuleLookup

/-! ## Changes -/

/-- A change of a cache. -/
inductive CacheChange where
  /-- a result is kept under a key -/
  | keep (k : CacheKey) (e : CacheEntry)
  /-- the results that lead to a file are forgotten -/
  | invalidate (p : Path)
  /-- all results are forgotten -/
  | clear

namespace Cache

/-- One change. -/
def change (c : Cache) : CacheChange → Cache
  | .keep k e => c.insert k e
  | .invalidate p => c.invalidate p
  | .clear => .empty

/-- The cache after changes, of which the latest comes first. Nothing is kept at first. -/
def after : List CacheChange → Cache
  | [] => .empty
  | x :: past => (after past).change x

/-- What was kept last under a key and not forgotten since, neither with its file nor with
everything. -/
def lastKept? (k : CacheKey) : List CacheChange → Option CacheEntry
  | [] => none
  | .keep l e :: past => if k = l then some e else lastKept? k past
  | .invalidate p :: past =>
    (lastKept? k past).filter fun e => decide (e.location? ≠ some p.components)
  | .clear :: _ => none

/-- The result that is kept under a key leads to the file at a location. -/
def LeadsTo (c : Cache) (k : CacheKey) (l : List Component) : Prop :=
  ∃ e, c.get? k = some e ∧ e.location? = some l

section LeadsTo

variable {c : Cache} {k k' : CacheKey} {l l' : List Component}

theorem bind_location?_eq_some_iff :
    (c.get? k).bind CacheEntry.location? = some l ↔ c.LeadsTo k l :=
  Option.bind_eq_some_iff

theorem not_leadsTo_of_get?_eq_none (h : c.get? k = none) : ¬c.LeadsTo k l := by
  rintro ⟨e, he, -⟩
  rw [h] at he
  cases he

/-- A result leads to one file at most. -/
theorem LeadsTo.unique (h : c.LeadsTo k l) (h' : c.LeadsTo k l') : l = l' := by
  obtain ⟨e, he, hl⟩ := h
  obtain ⟨e', he', hl'⟩ := h'
  obtain rfl := Option.some.inj (he.symm.trans he')
  exact Option.some.inj (hl.symm.trans hl')

theorem leadsTo_insert {e : CacheEntry} :
    (c.insert k e).LeadsTo k' l ↔ if k' = k then e.location? = some l else c.LeadsTo k' l := by
  rw [LeadsTo, get?_insert]
  by_cases h : k' = k <;> simp [h, LeadsTo]

end LeadsTo

/-! ## The table of locations -/

section Locations

variable {index : Table (List Component) (List CacheKey)}

/-- The keys noted for a location. -/
def keysAt (index : Table (List Component) (List CacheKey)) (l : List Component) :
    List CacheKey :=
  (index.get? l).getD []

/-- No location is noted without a key. -/
def Tidy (index : Table (List Component) (List CacheKey)) : Prop :=
  ∀ l, index.get? l ≠ some []

theorem keysAt_insert (l l' : List Component) (ks : List CacheKey) :
    keysAt (index.insert l ks) l' = if l' = l then ks else keysAt index l' := by
  rw [keysAt, Table.get?_insert]
  split <;> rfl

theorem keysAt_erase (l l' : List Component) :
    keysAt (index.erase l) l' = if l' = l then [] else keysAt index l' := by
  rw [keysAt, Table.get?_erase]
  split <;> rfl

theorem keysAt_link (k : CacheKey) (l l' : List Component) :
    keysAt (link index k l) l'
      = if l' = l then (keysAt index l).insert k else keysAt index l' :=
  keysAt_insert l l' _

theorem keysAt_unlink (k : CacheKey) (l l' : List Component) :
    keysAt (unlink index k l) l'
      = if l' = l then (keysAt index l).erase k else keysAt index l' := by
  rw [unlink]
  cases h : index.get? l with
  | none =>
    have hl : keysAt index l = [] := by rw [keysAt, h, Option.getD_none]
    by_cases hl' : l' = l
    · subst hl'
      rw [if_pos rfl, hl, List.erase_nil]
    · rw [if_neg hl']
  | some ks =>
    have hl : keysAt index l = ks := by rw [keysAt, h, Option.getD_some]
    rw [hl]
    dsimp only
    split
    · next hks => rw [keysAt_erase, hks]
    · rw [keysAt_insert]

namespace Tidy

theorem insert (h : Tidy index) (l : List Component) {ks : List CacheKey} (hks : ks ≠ []) :
    Tidy (index.insert l ks) := by
  intro l'
  rw [Table.get?_insert]
  split
  · exact fun heq => hks (Option.some.inj heq)
  · exact h l'

theorem erase (h : Tidy index) (l : List Component) : Tidy (index.erase l) := by
  intro l'
  rw [Table.get?_erase]
  split
  · intro heq
    cases heq
  · exact h l'

theorem link (h : Tidy index) (k : CacheKey) (l : List Component) : Tidy (link index k l) :=
  h.insert l (List.ne_nil_of_mem List.mem_insert_self)

/-- The location goes with its last key. -/
theorem unlink (h : Tidy index) (k : CacheKey) (l : List Component) :
    Tidy (unlink index k l) := by
  rw [Cache.unlink]
  split
  · exact h
  · split
    · exact h.erase l
    · next hks => exact h.insert l hks

end Tidy

end Locations

/-! ## The invariant -/

/-- The way back is right. -/
structure Linked (c : Cache) : Prop where
  /-- a key is noted for a location just when its result leads there -/
  mem_keysAt_iff : ∀ k l, k ∈ keysAt c.index l ↔ c.LeadsTo k l
  /-- no location is noted without a key -/
  tidy : Tidy c.index
  /-- no key is noted twice for a location -/
  nodup_keysAt : ∀ l, (keysAt c.index l).Nodup
  /-- no key has two results -/
  nodup_keys : c.entries.keys.Nodup

/-- The way back while a result is replaced: the key is taken out of where the old result leads,
unless the new one leads there, too. -/
def unlinkOld (c : Cache) (k : CacheKey) (new : Option (List Component)) :
    Table (List Component) (List CacheKey) :=
  match (c.get? k).bind CacheEntry.location? with
  | some l => if new = some l then c.index else unlink c.index k l
  | none => c.index

theorem index_insert (c : Cache) (k : CacheKey) (e : CacheEntry) :
    (c.insert k e).index = match e.location? with
      | some l => link (c.unlinkOld k e.location?) k l
      | none => c.unlinkOld k e.location? :=
  rfl

namespace Linked

variable {c : Cache} {k k' : CacheKey} {l : List Component} {new : Option (List Component)}

theorem empty : Linked .empty where
  mem_keysAt_iff k l := by simp [keysAt, Cache.empty, LeadsTo, get?]
  tidy l := by simp [Cache.empty]
  nodup_keysAt l := by simp [keysAt, Cache.empty]
  nodup_keys := List.nodup_nil

/-- All that is noted under the key afterwards is where the new result leads. -/
theorem mem_keysAt_unlinkOld_iff (h : c.Linked) :
    k' ∈ keysAt (c.unlinkOld k new) l ↔ k' ∈ keysAt c.index l ∧ (k' = k → new = some l) := by
  have hleads : ∀ m, k ∈ keysAt c.index m → (c.get? k).bind CacheEntry.location? = some m := by
    intro m hm
    exact bind_location?_eq_some_iff.2 ((h.mem_keysAt_iff k m).1 hm)
  rw [unlinkOld]
  cases hold : (c.get? k).bind CacheEntry.location? with
  | none =>
    refine ⟨fun hk => ⟨hk, ?_⟩, And.left⟩
    rintro rfl
    have := hold.symm.trans (hleads l hk)
    cases this
  | some old =>
    by_cases hnew : new = some old
    · simp only [if_pos hnew]
      refine ⟨fun hk => ⟨hk, ?_⟩, And.left⟩
      rintro rfl
      exact hnew.trans (hold.symm.trans (hleads l hk))
    · simp only [if_neg hnew, keysAt_unlink]
      by_cases hl : l = old
      · subst hl
        rw [if_pos rfl, (h.nodup_keysAt l).mem_erase_iff, and_comm]
        exact and_congr_right fun _ =>
          ⟨fun hne heq => absurd heq hne, fun himp heq => hnew (himp heq)⟩
      · rw [if_neg hl]
        refine ⟨fun hk => ⟨hk, ?_⟩, And.left⟩
        rintro rfl
        exact absurd (Option.some.inj ((hleads l hk).symm.trans hold)) hl

theorem tidy_unlinkOld (h : c.Linked) (k : CacheKey) (new : Option (List Component)) :
    Tidy (c.unlinkOld k new) := by
  rw [unlinkOld]
  split
  · split
    · exact h.tidy
    · exact h.tidy.unlink k _
  · exact h.tidy

theorem nodup_keysAt_unlinkOld (h : c.Linked) (k : CacheKey) (new : Option (List Component))
    (l : List Component) : (keysAt (c.unlinkOld k new) l).Nodup := by
  rw [unlinkOld]
  split
  · split
    · exact h.nodup_keysAt l
    · rw [keysAt_unlink]
      split
      · exact (h.nodup_keysAt _).erase k
      · exact h.nodup_keysAt l
  · exact h.nodup_keysAt l

/-- **Keeping a result** moves its key to where the result leads. -/
theorem insert (h : c.Linked) (k : CacheKey) (e : CacheEntry) : (c.insert k e).Linked where
  mem_keysAt_iff k' l := by
    rw [leadsTo_insert, index_insert]
    cases he : e.location? with
    | none =>
      -- the key is nowhere now, and the others are where they were
      rw [h.mem_keysAt_unlinkOld_iff, h.mem_keysAt_iff]
      by_cases hk : k' = k <;> simp [hk]
    | some new =>
      simp only [keysAt_link]
      by_cases hl : l = new
      · subst hl
        rw [if_pos rfl, List.mem_insert_iff, h.mem_keysAt_unlinkOld_iff, h.mem_keysAt_iff]
        by_cases hk : k' = k <;> simp [hk]
      · rw [if_neg hl, h.mem_keysAt_unlinkOld_iff, h.mem_keysAt_iff]
        by_cases hk : k' = k <;> simp [hk, Ne.symm hl]
  tidy := by
    rw [index_insert]
    split
    · exact (h.tidy_unlinkOld k _).link k _
    · exact h.tidy_unlinkOld k _
  nodup_keysAt l := by
    rw [index_insert]
    split
    · rw [keysAt_link]
      split
      · exact (h.nodup_keysAt_unlinkOld k _ _).insert
      · exact h.nodup_keysAt_unlinkOld k _ l
    · exact h.nodup_keysAt_unlinkOld k _ l
  nodup_keys := Table.nodup_keys_insert h.nodup_keys k e

theorem mem_keysOf_iff (h : c.Linked) {p : Path} : k ∈ c.keysOf p ↔ c.LeadsTo k p.components :=
  h.mem_keysAt_iff k p.components

/-- What is left after a file is forgotten: the results that do not lead there. -/
theorem get?_invalidate_of_leadsTo (h : c.Linked) {p : Path} (hk : c.LeadsTo k p.components) :
    (c.invalidate p).get? k = none := by
  rw [get?_invalidate, if_pos (h.mem_keysOf_iff.2 hk)]

theorem get?_invalidate_of_not_leadsTo (h : c.Linked) {p : Path}
    (hk : ¬c.LeadsTo k p.components) : (c.invalidate p).get? k = c.get? k := by
  rw [get?_invalidate, if_neg fun hmem => hk (h.mem_keysOf_iff.1 hmem)]

theorem leadsTo_invalidate_iff (h : c.Linked) {p : Path} :
    (c.invalidate p).LeadsTo k l ↔ l ≠ p.components ∧ c.LeadsTo k l := by
  by_cases hk : c.LeadsTo k p.components
  · have hgone : ¬(c.invalidate p).LeadsTo k l :=
      not_leadsTo_of_get?_eq_none (h.get?_invalidate_of_leadsTo hk)
    exact ⟨fun hl => absurd hl hgone, fun hl => absurd (hl.2.unique hk) hl.1⟩
  · rw [LeadsTo, h.get?_invalidate_of_not_leadsTo hk, ← LeadsTo]
    refine ⟨fun hl => ⟨?_, hl⟩, And.right⟩
    rintro rfl
    exact hk hl

theorem keysAt_index_invalidate (p : Path) (l : List Component) :
    keysAt (c.invalidate p).index l = if l = p.components then [] else keysAt c.index l :=
  keysAt_erase p.components l

/-- **Forgetting a file** takes out its keys and their results. -/
theorem invalidate (h : c.Linked) (p : Path) : (c.invalidate p).Linked where
  mem_keysAt_iff k l := by
    rw [h.leadsTo_invalidate_iff, keysAt_index_invalidate, ← h.mem_keysAt_iff]
    by_cases hl : l = p.components <;> simp [hl]
  tidy := h.tidy.erase p.components
  nodup_keysAt l := by
    rw [keysAt_index_invalidate]
    split
    · exact List.nodup_nil
    · exact h.nodup_keysAt l
  nodup_keys := Table.nodup_keys_foldl_erase h.nodup_keys (c.keysOf p)

/-- As many results lead to a file as keys are noted for it. -/
theorem length_keysOf (h : c.Linked) (p : Path) :
    (c.keysOf p).length = {k | c.LeadsTo k p.components}.ncard := by
  have hset : {k | c.LeadsTo k p.components} = ↑(c.keysOf p).toFinset := by
    ext k
    rw [Set.mem_ofPred_eq, ← h.mem_keysOf_iff, Finset.mem_coe, List.mem_toFinset]
  have hnodup : (c.keysOf p).Nodup := h.nodup_keysAt p.components
  rw [hset, Set.ncard_coe_finset, List.toFinset_card_of_nodup hnodup]

/-- So many results are gone. -/
theorem size_invalidate (h : c.Linked) (p : Path) :
    (c.invalidate p).size + (c.keysOf p).length = c.size := by
  refine Table.size_foldl_erase h.nodup_keys (h.nodup_keysAt p.components) ?_
  intro k hk
  obtain ⟨e, he, -⟩ := h.mem_keysOf_iff.1 hk
  exact Table.get?_isSome_iff.1 (Option.isSome_iff_exists.2 ⟨e, he⟩)

end Linked

/-! ## Any number of changes -/

/-- **The invariant holds** after any changes. -/
theorem linked_after (changes : List CacheChange) : (after changes).Linked := by
  induction changes with
  | nil => exact Linked.empty
  | cons x past ih =>
    cases x with
    | keep k e => exact ih.insert k e
    | invalidate p => exact ih.invalidate p
    | clear => exact Linked.empty

/-- What is kept is what was kept last and not forgotten. -/
theorem get?_after (changes : List CacheChange) (k : CacheKey) :
    (after changes).get? k = lastKept? k changes := by
  induction changes with
  | nil => rfl
  | cons x past ih =>
    cases x with
    | keep l e => rw [after, change, get?_insert, lastKept?, ih]
    | invalidate p =>
      have hlinked := linked_after past
      rw [after, change, lastKept?, ← ih]
      by_cases hk : (after past).LeadsTo k p.components
      · obtain ⟨e, he, hl⟩ := hk
        rw [hlinked.get?_invalidate_of_leadsTo ⟨e, he, hl⟩, he]
        simp [Option.filter, hl]
      · rw [hlinked.get?_invalidate_of_not_leadsTo hk]
        cases he : (after past).get? k with
        | none => rfl
        | some e =>
          have hl : e.location? ≠ some p.components := fun hl => hk ⟨e, he, hl⟩
          simp [Option.filter, hl]
    | clear => rfl

/-- **Caches are exact**, whatever was kept and forgotten before. A key is noted for a file just
when its result leads there, and no file is noted without a key. So forgetting a file forgets as
many results as keys are noted, namely those that lead there, and leaves every other result and
what is noted of it as it was; and what is kept under a key is what was kept last and not
forgotten since. -/
theorem after_exact (changes : List CacheChange) :
    (∀ k p, k ∈ (after changes).keysOf p ↔
        ∃ e, (after changes).get? k = some e ∧ e.location? = some p.components) ∧
      (∀ l, (after changes).index.get? l ≠ some []) ∧
      (∀ p, ((after changes).keysOf p).length
            = {k | (after changes).LeadsTo k p.components}.ncard ∧
          ((after changes).invalidate p).size + ((after changes).keysOf p).length
            = (after changes).size ∧
          (∀ k, (after changes).LeadsTo k p.components →
            ((after changes).invalidate p).get? k = none) ∧
          (∀ k, ¬(after changes).LeadsTo k p.components →
            ((after changes).invalidate p).get? k = (after changes).get? k ∧
              ∀ q, k ∈ ((after changes).invalidate p).keysOf q ↔ k ∈ (after changes).keysOf q)) ∧
      ∀ k, (after changes).get? k = lastKept? k changes := by
  have h := linked_after changes
  refine ⟨fun k p => h.mem_keysOf_iff, h.tidy, ?_, get?_after changes⟩
  intro p
  refine ⟨h.length_keysOf p, h.size_invalidate p, fun k => h.get?_invalidate_of_leadsTo, ?_⟩
  intro k hk
  refine ⟨h.get?_invalidate_of_not_leadsTo hk, fun q => ?_⟩
  rw [(h.invalidate p).mem_keysOf_iff, h.leadsTo_invalidate_iff, h.mem_keysOf_iff]
  refine ⟨And.right, fun hq => ⟨?_, hq⟩⟩
  intro heq
  exact hk (heq ▸ hq)

end Cache

end ModuleLookup
