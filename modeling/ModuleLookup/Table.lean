/-!
# Tables

A finite map as a list of keys with their values. At most the first entry of a key
counts, and every operation is described by what `Table.get?` finds afterwards:
`get?_insert` and `get?_erase`. Tables that are built with these operations hold no key
twice, so that `Table.size` counts keys: `nodup_keys_insert` and `size_erase`.
-/

namespace ModuleLookup

/-- A finite map. -/
structure Table (κ α : Type) where
  /-- the entries; of several with one key the first counts -/
  entries : List (κ × α)

namespace Table

variable {κ α : Type} [DecidableEq κ]

/-- The table without entries. -/
def empty : Table κ α := ⟨[]⟩

/-- The value of a key. -/
def get? (t : Table κ α) (k : κ) : Option α :=
  (t.entries.find? fun e => decide (e.1 = k)).map Prod.snd

/-- The table without a key. -/
def erase (t : Table κ α) (k : κ) : Table κ α :=
  ⟨t.entries.filter fun e => decide (e.1 ≠ k)⟩

/-- The table with a value for a key, in place of any other. -/
def insert (t : Table κ α) (k : κ) (a : α) : Table κ α :=
  ⟨(k, a) :: (t.erase k).entries⟩

/-- The number of entries. -/
def size (t : Table κ α) : Nat :=
  t.entries.length

@[simp] theorem get?_empty (k : κ) : (empty : Table κ α).get? k = none := rfl

theorem get?_erase_self (t : Table κ α) (k : κ) : (t.erase k).get? k = none := by
  simp [get?, erase]

theorem get?_erase_ne (t : Table κ α) {k l : κ} (h : l ≠ k) :
    (t.erase k).get? l = t.get? l := by
  have hp (e : κ × α) : (e.1 ≠ k ∧ e.1 = l) ↔ e.1 = l :=
    ⟨fun he => he.2, fun he => ⟨he ▸ h, he⟩⟩
  simp only [get?, erase, List.find?_filter, decide_eq_true_eq, hp]

theorem get?_insert_self (t : Table κ α) (k : κ) (a : α) : (t.insert k a).get? k = some a := by
  simp [get?, insert]

theorem get?_insert_ne (t : Table κ α) {k l : κ} (a : α) (h : l ≠ k) :
    (t.insert k a).get? l = t.get? l := by
  rw [← get?_erase_ne t h]
  simp [get?, insert, Ne.symm h]

theorem get?_erase (t : Table κ α) (k l : κ) :
    (t.erase k).get? l = if l = k then none else t.get? l := by
  by_cases h : l = k
  · subst h
    rw [get?_erase_self, if_pos rfl]
  · rw [get?_erase_ne t h, if_neg h]

theorem get?_insert (t : Table κ α) (k l : κ) (a : α) :
    (t.insert k a).get? l = if l = k then some a else t.get? l := by
  by_cases h : l = k
  · subst h
    rw [get?_insert_self, if_pos rfl]
  · rw [get?_insert_ne t a h, if_neg h]

/-- Several keys are erased one after the other. -/
theorem get?_foldl_erase (t : Table κ α) (ks : List κ) (k : κ) :
    (ks.foldl erase t).get? k = if k ∈ ks then none else t.get? k := by
  induction ks generalizing t with
  | nil => simp
  | cons l ks ih =>
    rw [List.foldl_cons, ih, get?_erase]
    by_cases hl : k = l <;> simp [hl]

/-! ## Keys -/

/-- The keys of the entries. -/
def keys (t : Table κ α) : List κ :=
  t.entries.map Prod.fst

theorem get?_isSome_iff {t : Table κ α} {k : κ} : (t.get? k).isSome ↔ k ∈ t.keys := by
  simp [get?, keys]

theorem nodup_keys_erase {t : Table κ α} (h : t.keys.Nodup) (k : κ) : (t.erase k).keys.Nodup :=
  (List.Sublist.map Prod.fst List.filter_sublist).nodup h

theorem nodup_keys_insert {t : Table κ α} (h : t.keys.Nodup) (k : κ) (a : α) :
    (t.insert k a).keys.Nodup := by
  have hk : k ∉ (t.erase k).keys := by
    rw [← get?_isSome_iff, get?_erase_self]
    simp
  exact List.nodup_cons.2 ⟨hk, nodup_keys_erase h k⟩

/-- A key that is there takes one entry with it. -/
theorem size_erase {t : Table κ α} (h : t.keys.Nodup) {k : κ} (hk : k ∈ t.keys) :
    (t.erase k).size + 1 = t.size := by
  have hone : t.entries.countP (fun e => decide (e.1 = k)) = 1 := by
    have hcount : t.keys.count k = 1 := by rw [h.count, if_pos hk]
    rw [List.count, keys, List.countP_map] at hcount
    exact hcount
  rw [size, size, erase, ← List.countP_eq_length_filter,
    List.length_eq_countP_add_countP (fun e => decide (e.1 = k)), hone, Nat.add_comm]
  simp

theorem nodup_keys_foldl_erase {t : Table κ α} (h : t.keys.Nodup) (ks : List κ) :
    (ks.foldl erase t).keys.Nodup := by
  induction ks generalizing t with
  | nil => exact h
  | cons l ks ih => exact ih (nodup_keys_erase h l)

/-- Different keys that are there take one entry each with them. -/
theorem size_foldl_erase {t : Table κ α} (h : t.keys.Nodup) {ks : List κ} (hks : ks.Nodup)
    (hmem : ∀ k ∈ ks, k ∈ t.keys) : (ks.foldl erase t).size + ks.length = t.size := by
  induction ks generalizing t with
  | nil => rfl
  | cons l ks ih =>
    obtain ⟨hl, hks⟩ := List.nodup_cons.1 hks
    have hrest : ∀ k ∈ ks, k ∈ (t.erase l).keys := by
      intro k hk
      have hne : k ≠ l := fun heq => hl (heq ▸ hk)
      rw [← get?_isSome_iff, get?_erase_ne t hne, get?_isSome_iff]
      exact hmem k (List.mem_cons_of_mem l hk)
    have hsize := ih (nodup_keys_erase h l) hks hrest
    rw [List.foldl_cons, List.length_cons, ← Nat.add_assoc, hsize,
      size_erase h (hmem l List.mem_cons_self)]

end Table

end ModuleLookup
