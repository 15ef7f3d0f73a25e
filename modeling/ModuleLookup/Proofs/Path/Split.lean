import ModuleLookup.Proofs.Path.Normal

/-!
# Segments of a normal form

A normal form is cut into segments and written from them again without loss. It is a lone `.`,
or the root and then names, or some `..` and then names, and so is every part of it that
begins where it begins.

* `Path.Settled.exists_names` — a settled stack is names on the root, or names on some `..`.
* `Path.normalize_ofComponents` — a settled stack, written down, is its own normal form;
  `Path.Settled.of_append` — and what is at the bottom of a settled stack is settled.
* `Path.normalize_same` — an absolute path without `..` is the same path as its normal form.
* `Path.split_of_ne_nil`, `Path.ofSegments_split` — the segments, and back.
* `Path.split_inverse` — splitting and writing down undo each other, also for the first
  segments alone.
-/

namespace ModuleLookup

namespace Path

/-! ## Settled stacks -/

/-- A settled stack is names on the root, or names on some `..`. -/
theorem Settled.exists_names {stack : List Component} (h : Settled stack) :
    ∃ names : List String, (∀ s ∈ names, ProperName s) ∧
      (stack = names.map Component.name ++ [.root] ∨
        ∃ n, stack = names.map Component.name ++ List.replicate n .parent) := by
  induction stack with
  | nil => exact ⟨[], fun _ hs => absurd hs List.not_mem_nil, .inr ⟨0, rfl⟩⟩
  | cons c below ih =>
    cases c with
    | name s =>
      obtain ⟨names, hnames, heq⟩ := ih h.2
      refine ⟨s :: names, List.forall_mem_cons.2 ⟨h.1, hnames⟩, ?_⟩
      rcases heq with rfl | ⟨n, rfl⟩
      · exact .inl rfl
      · exact .inr ⟨n, rfl⟩
    | parent =>
      refine ⟨[], fun _ hs => absurd hs List.not_mem_nil, .inr ⟨below.length + 1, ?_⟩⟩
      rw [List.map_nil, List.nil_append, List.replicate_succ, ← List.eq_replicate_of_mem h]
    | root =>
      obtain rfl : below = [] := h
      exact ⟨[], fun _ hs => absurd hs List.not_mem_nil, .inl rfl⟩
    | current => exact h.elim

/-- What is at the bottom of a settled stack is settled. -/
theorem Settled.of_append {above below : List Component} (h : Settled (above ++ below)) :
    Settled below := by
  induction above with
  | nil => exact h
  | cons c above ih => exact ih h.tail

/-- What lies on a settled stack may be put there. -/
theorem Settled.push_eq {c : Component} {below : List Component} (h : Settled (c :: below)) :
    push below c = c :: below := by
  cases c with
  | name s => cases below <;> rfl
  | root =>
    obtain rfl : below = [] := h
    rfl
  | current => exact h.elim
  | parent =>
    cases below with
    | nil => rfl
    | cons b below =>
      obtain rfl := h b List.mem_cons_self
      rfl

/-- A second pass leaves a settled stack as it is. -/
theorem Settled.foldl_push_reverse {stack : List Component} (h : Settled stack) :
    stack.reverse.foldl push [] = stack := by
  induction stack with
  | nil => rfl
  | cons c below ih =>
    rw [List.reverse_cons, List.foldl_append, ih h.tail]
    exact h.push_eq

/-- Names on the root are settled. -/
theorem settled_append_root {cs : List Component} (h : ∀ c ∈ cs, c.Inner ∧ c ≠ .parent) :
    Settled (cs ++ [.root]) := by
  induction cs with
  | nil => exact (rfl : ([] : List Component) = [])
  | cons c cs ih =>
    obtain ⟨hinner, hparent⟩ := h c List.mem_cons_self
    have hbelow := ih fun b hb => h b (List.mem_cons_of_mem c hb)
    cases c with
    | name s => exact ⟨hinner, hbelow⟩
    | parent => exact absurd rfl hparent
    | root => exact hinner.elim
    | current => exact hinner.elim

/-- A settled stack, written down, is its own normal form. -/
theorem normalize_ofComponents {stack : List Component} (h : Settled stack)
    (hne : stack ≠ []) : (ofComponents stack.reverse).normalize = ofComponents stack.reverse := by
  have hnormal : (ofComponents stack.reverse).normalComponents = stack.reverse := by
    rw [normalComponents, components_ofComponents h, h.foldl_push_reverse]
  rw [normalize_of_ne_nil, hnormal]
  rw [hnormal]
  exact fun hnil => hne (List.reverse_eq_nil_iff.1 hnil)

/-- The components of a normal form: the root and names, or some `..` and names. -/
theorem exists_normalComponents_eq (p : Path) :
    ∃ names : List String, (∀ s ∈ names, ProperName s) ∧
      (p.normalComponents = .root :: names.map Component.name ∨
        ∃ n, p.normalComponents = List.replicate n .parent ++ names.map Component.name) := by
  obtain ⟨names, hnames, heq⟩ := (settled_normalComponents p).exists_names
  refine ⟨names.reverse, fun s hs => hnames s (List.mem_reverse.1 hs), ?_⟩
  rcases heq with heq | ⟨n, heq⟩
  · left
    rw [List.reverse_eq_iff.1 heq, List.reverse_append, List.map_reverse]
    rfl
  · right
    refine ⟨n, ?_⟩
    rw [List.reverse_eq_iff.1 heq, List.reverse_append, List.reverse_replicate, List.map_reverse]

/-! ## Paths without `..` -/

/-- The pass to the normal form finds nothing to do without a `..`. -/
theorem normalComponents_of_parent_not_mem {p : Path} (ha : p.isAbsolute = true)
    (hp : .parent ∉ p.components) : p.normalComponents = p.components := by
  have hc := components_of_isAbsolute ha
  have hsettled : Settled p.components.reverse := by
    rw [hc, List.reverse_cons]
    apply settled_append_root
    intro c hmem
    have hadded := List.mem_reverse.1 hmem
    refine ⟨inner_of_mem_added hadded, ?_⟩
    rintro rfl
    rw [hc] at hp
    exact hp (List.mem_cons_of_mem _ hadded)
  have hfold := hsettled.foldl_push_reverse
  rw [List.reverse_reverse] at hfold
  rw [normalComponents, hfold, List.reverse_reverse]

/-- **The normal form is the same path**, for an absolute path without `..`. -/
theorem normalize_same {p : Path} (ha : p.isAbsolute = true) (hp : .parent ∉ p.components) :
    p.normalize.Same p := by
  have hroot := root_mem_normalComponents_iff.2 ha
  rw [Same, components_normalize (List.ne_nil_of_mem hroot),
    normalComponents_of_parent_not_mem ha hp]

/-! ## Segments -/

theorem split_of_eq_nil {p : Path} (h : p.normalComponents = []) : p.split = ["."] := by
  rw [split, normalize_of_eq_nil h]
  decide

theorem split_of_ne_nil {p : Path} (h : p.normalComponents ≠ []) :
    p.split = p.normalComponents.map Component.text := by
  rw [split, components_normalize h]

/-- The segments of a path, joined again, are its normal form. -/
theorem ofSegments_split (p : Path) : ofSegments p.split = p.normalize := by
  by_cases h : p.normalComponents = []
  · rw [split_of_eq_nil h, normalize_of_eq_nil h]
    decide
  · rw [split_of_ne_nil h, normalize_of_ne_nil h]
    rfl

theorem split_eq_iff {p q : Path} : p.split = q.split ↔ p.normalize = q.normalize := by
  constructor
  · intro h
    rw [← ofSegments_split p, h, ofSegments_split]
  · intro h
    rw [split, h, split]

/-- The segments of a path: a lone `.`, or the root and names, or some `..` and names. -/
theorem exists_split_eq (p : Path) :
    p.split = ["."] ∨ ∃ names : List String, (∀ s ∈ names, ProperName s) ∧
      (p.split = "/" :: names ∨ ∃ n, p.split = List.replicate n ".." ++ names) := by
  have hnames (names : List String) : (names.map Component.name).map Component.text = names := by
    rw [List.map_map]
    exact List.map_id names
  by_cases h : p.normalComponents = []
  · exact .inl (split_of_eq_nil h)
  · right
    obtain ⟨names, hproper, heq⟩ := exists_normalComponents_eq p
    refine ⟨names, hproper, ?_⟩
    rw [split_of_ne_nil h]
    rcases heq with heq | ⟨n, heq⟩
    · left
      rw [heq, List.map_cons, hnames]
      rfl
    · right
      refine ⟨n, ?_⟩
      rw [heq, List.map_append, hnames, List.map_replicate]
      rfl

theorem split_ne_nil (p : Path) : p.split ≠ [] := by
  by_cases h : p.normalComponents = []
  · rw [split_of_eq_nil h]
    exact List.cons_ne_nil _ _
  · rw [split_of_ne_nil h]
    exact fun hnil => h (List.map_eq_nil_iff.1 hnil)

/-- The first segments of a path are written as a normal form. -/
theorem normalize_ofSegments_of_first {p : Path} {parts : List String} (h : parts <+: p.split)
    (hne : parts ≠ []) : (ofSegments parts).normalize = ofSegments parts := by
  by_cases hp : p.normalComponents = []
  · rw [split_of_eq_nil hp] at h
    obtain ⟨rest, rfl, hrest⟩ := (List.prefix_cons_iff.1 h).resolve_left hne
    obtain rfl := List.prefix_nil.1 hrest
    decide
  · rw [split_of_ne_nil hp] at h
    obtain ⟨cs, ⟨rest, hcs⟩, rfl⟩ := List.prefix_map_iff.1 h
    have hsettled := settled_normalComponents p
    rw [← hcs, List.reverse_append] at hsettled
    have hnil : cs.reverse ≠ [] := fun hnil => hne (by rw [List.reverse_eq_nil_iff.1 hnil]; rfl)
    have hnormal := normalize_ofComponents hsettled.of_append hnil
    rw [List.reverse_reverse] at hnormal
    exact hnormal

/-- **Splitting and joining undo each other.** The segments of a path, joined, are its normal
form and have the same segments again; so paths have one normal form just when they have the
same segments. There are always some, in one of three shapes, and the first of them, however
many, are joined to a path in normal form. -/
theorem split_inverse :
    (∀ p : Path, ofSegments p.split = p.normalize ∧ (ofSegments p.split).split = p.split) ∧
    (∀ p q : Path, p.split = q.split ↔ p.normalize = q.normalize) ∧
    (∀ p : Path, p.split ≠ [] ∧
      (p.split = ["."] ∨ ∃ names : List String, (∀ s ∈ names, ProperName s) ∧
        (p.split = "/" :: names ∨ ∃ n, p.split = List.replicate n ".." ++ names))) ∧
    ∀ (p : Path) (parts : List String), parts <+: p.split → parts ≠ [] →
      (ofSegments parts).normalize = ofSegments parts := by
  refine ⟨fun p => ⟨ofSegments_split p, ?_⟩, fun p q => split_eq_iff,
    fun p => ⟨split_ne_nil p, exists_split_eq p⟩,
    fun p parts => normalize_ofSegments_of_first⟩
  rw [split_eq_iff, normalize_ofSegments_of_first (List.prefix_refl p.split) (split_ne_nil p),
    ofSegments_split]

/-- The first two segments of a path that goes outwards. -/
theorem split_inverse_outwards :
    ["..", "a"] <+: split ⟨".././/a/b/../c"⟩ ∧ ["..", "a"] ≠ [] ∧
      (ofSegments ["..", "a"]).normalize = ofSegments ["..", "a"] := by
  have hfirst : ["..", "a"] <+: split ⟨".././/a/b/../c"⟩ := by decide +kernel
  have hne : ["..", "a"] ≠ [] := List.cons_ne_nil _ _
  exact ⟨hfirst, hne, split_inverse.2.2.2 _ _ hfirst hne⟩

end Path

end ModuleLookup
