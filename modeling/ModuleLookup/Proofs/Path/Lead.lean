import ModuleLookup.Proofs.Path.Split

/-!
# Where paths lead

A path leads from any place to a place, by names alone: a name goes inwards, `..` goes outwards
as long as there is an outside, and the root starts again. This is all that a path means, and
its normal form says just this: two paths have one normal form if and only if they lead from
every place to the same place. So every law of normal forms is a law about places.

* `placeAfter` — where one component leads; `Path.lead` — where a path leads.
* `Path.lead_normalize` — a normal form leads to where its path leads; `Path.lead_join` — a
  joined path leads to where its second part leads from the end of the first.
* `Path.normalize_eq_iff_lead` — nothing else decides the normal form.
-/

namespace ModuleLookup

/-- Where a component leads from a place. A place is given by the names on the way to it,
innermost first. -/
def placeAfter : List String → Component → List String
  | _, .root => []
  | names, .current => names
  | names, .parent => names.tail
  | names, .name s => s :: names

namespace Path

/-- Where a path leads from a place. -/
def lead (p : Path) (names : List String) : List String :=
  p.components.foldl placeAfter names

/-! ## Where a normal form leads -/

/-- Putting a component on a stack is going one step further. -/
theorem foldl_placeAfter_push (stack : List Component) (c : Component) (names : List String) :
    (push stack c).reverse.foldl placeAfter names
      = placeAfter (stack.reverse.foldl placeAfter names) c := by
  fun_cases push stack c with
  | case1 => rfl
  | case2 s below =>
    rw [List.reverse_cons, List.foldl_append]
    rfl
  | case3 below =>
    rw [List.reverse_cons, List.foldl_append]
    rfl
  | case4 =>
    rw [List.reverse_cons, List.foldl_append]
    rfl

theorem foldl_placeAfter_foldl_push (cs stack : List Component) (names : List String) :
    (cs.foldl push stack).reverse.foldl placeAfter names
      = cs.foldl placeAfter (stack.reverse.foldl placeAfter names) := by
  induction cs generalizing stack with
  | nil => rfl
  | cons c cs ih => rw [List.foldl_cons, List.foldl_cons, ih, foldl_placeAfter_push]

/-- **A normal form leads to where its path leads.** -/
theorem foldl_placeAfter_normalComponents (p : Path) (names : List String) :
    p.normalComponents.foldl placeAfter names = p.components.foldl placeAfter names := by
  rw [normalComponents, foldl_placeAfter_foldl_push]
  rfl

/-- Names lead to the place that they name. -/
theorem foldl_placeAfter_names (below names : List String) :
    (names.map Component.name).foldl placeAfter below = names.reverse ++ below := by
  induction names generalizing below with
  | nil => rfl
  | cons s names ih => rw [List.map_cons, List.foldl_cons, ih, List.reverse_cons,
      List.append_assoc]; rfl

/-- As many `..` go outwards as far, or to the root. -/
theorem foldl_placeAfter_parents (n : Nat) (names : List String) :
    (List.replicate n Component.parent).foldl placeAfter names = names.drop n := by
  induction n generalizing names with
  | zero => rfl
  | succ n ih =>
    rw [List.replicate_succ, List.foldl_cons, ih, placeAfter, List.drop_tail]

theorem lead_dot (names : List String) : lead ⟨"."⟩ names = names :=
  rfl

/-- Normalizing a path does not change where it leads. -/
theorem lead_normalize (p : Path) (names : List String) :
    p.normalize.lead names = p.lead names := by
  rw [lead.eq_def p, ← foldl_placeAfter_normalComponents]
  by_cases h : p.normalComponents = []
  · rw [normalize_of_eq_nil h, h]
    exact lead_dot names
  · rw [lead, components_normalize h]

/-! ## Where a joined path leads -/

theorem Same.lead_eq {p q : Path} (h : p.Same q) (names : List String) :
    p.lead names = q.lead names := by
  rw [lead, h, lead]

theorem lead_of_isAbsolute {p : Path} (h : p.isAbsolute = true) (names : List String) :
    p.lead names = p.lead [] := by
  rw [lead, lead, components_of_isAbsolute h]
  rfl

theorem lead_of_not_isAbsolute {p : Path} (h : p.isAbsolute = false) (names : List String) :
    p.lead names = p.added.foldl placeAfter names := by
  rw [lead]
  rcases components_of_not_isAbsolute h with hc | hc
  · rw [hc]
  · rw [hc]
    rfl

/-- A joined path leads to where its second part leads from the end of the first. -/
theorem lead_join (base add : Path) (names : List String) :
    (base.join add).lead names = add.lead (base.lead names) := by
  cases ha : add.isAbsolute with
  | true => rw [join_of_isAbsolute ha, lead_of_isAbsolute ha, ← lead_of_isAbsolute ha]
  | false =>
    by_cases hb : base.text = ""
    · rw [join_of_text_eq_empty hb, lead.eq_def base, components_eq_nil_iff.2 hb]
      rfl
    · rw [lead, components_join hb ha, List.foldl_append, lead_of_not_isAbsolute ha]
      rfl

/-- A name leads one place further inwards. -/
theorem lead_name {s : String} (h : ProperName s) (names : List String) :
    lead ⟨s⟩ names = s :: names := by
  have hc : components ⟨s⟩ = [.name s] := components_text (c := .name s) h
  rw [lead, hc]
  rfl

/-! ## Paths that lead to the same places -/

theorem lead_of_root {p : Path} {inwards : List String}
    (h : p.normalComponents = .root :: inwards.map Component.name) (names : List String) :
    p.lead names = inwards.reverse := by
  rw [lead, ← foldl_placeAfter_normalComponents, h, List.foldl_cons, foldl_placeAfter_names]
  exact List.append_nil _

theorem lead_of_parents {p : Path} {n : Nat} {inwards : List String}
    (h : p.normalComponents = List.replicate n .parent ++ inwards.map Component.name)
    (names : List String) : p.lead names = inwards.reverse ++ names.drop n := by
  rw [lead, ← foldl_placeAfter_normalComponents, h, List.foldl_append,
    foldl_placeAfter_parents, foldl_placeAfter_names]

/-- A list does not end with every name. -/
theorem not_forall_append_eq (front others : List String) :
    ¬∀ s : String, front ++ [s] = others := by
  intro h
  have heq := (h "").trans (h "/").symm
  exact absurd (List.append_cancel_left heq) (by decide)

/-- A path from the root and one that goes outwards lead apart. -/
theorem not_forall_append_drop_eq (front others : List String) (n : Nat) :
    ¬∀ names : List String, front ++ names.drop n = others := by
  intro h
  refine not_forall_append_eq front others fun s => ?_
  have hs := h (List.replicate n "" ++ [s])
  rwa [List.drop_left' List.length_replicate] at hs

/-- Paths that go outwards to a different extent lead apart. -/
theorem not_lt_of_forall_append_drop_eq {front others : List String} {m n : Nat}
    (h : ∀ names : List String, front ++ names.drop m = others ++ names.drop n) : ¬m < n := by
  intro hlt
  refine not_forall_append_eq front others fun s => ?_
  have hs := h (List.replicate m "" ++ [s])
  have hlength : (List.replicate m "" ++ [s]).length ≤ n := by
    rw [List.length_append, List.length_replicate]
    exact hlt
  rwa [List.drop_left' List.length_replicate, List.drop_eq_nil_of_le hlength,
    List.append_nil] at hs

/-- Where a path leads decides the components of its normal form. -/
theorem normalComponents_eq_of_lead {p q : Path} (h : ∀ names, p.lead names = q.lead names) :
    p.normalComponents = q.normalComponents := by
  obtain ⟨ps, -, hp⟩ := exists_normalComponents_eq p
  obtain ⟨qs, -, hq⟩ := exists_normalComponents_eq q
  rcases hp with hp | ⟨m, hp⟩
  · rcases hq with hq | ⟨n, hq⟩
    · have hnames := h []
      rw [lead_of_root hp, lead_of_root hq, List.reverse_inj] at hnames
      rw [hp, hq, hnames]
    · refine absurd (fun names => ?_) (not_forall_append_drop_eq qs.reverse ps.reverse n)
      rw [← lead_of_parents hq, ← h, lead_of_root hp]
  · rcases hq with hq | ⟨n, hq⟩
    · refine absurd (fun names => ?_) (not_forall_append_drop_eq ps.reverse qs.reverse m)
      rw [← lead_of_parents hp, h, lead_of_root hq]
    · have hdrop (names : List String) :
          ps.reverse ++ names.drop m = qs.reverse ++ names.drop n := by
        rw [← lead_of_parents hp, h, lead_of_parents hq]
      obtain rfl : m = n := Nat.le_antisymm
        (Nat.not_lt.1 (not_lt_of_forall_append_drop_eq fun names => (hdrop names).symm))
        (Nat.not_lt.1 (not_lt_of_forall_append_drop_eq hdrop))
      rw [hp, hq, List.reverse_inj.1 (List.append_cancel_right (hdrop []))]

/-- **Places decide the normal form.** Two paths have one normal form just when they lead from
every place to the same place. -/
theorem normalize_eq_iff_lead {p q : Path} :
    p.normalize = q.normalize ↔ ∀ names, p.lead names = q.lead names := by
  constructor
  · intro h names
    rw [← lead_normalize, h, lead_normalize]
  · intro h
    exact normalize_congr (normalComponents_eq_of_lead h)

end Path

end ModuleLookup
