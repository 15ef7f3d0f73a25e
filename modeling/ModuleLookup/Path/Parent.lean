import ModuleLookup.Path.Basic

/-!
# Parents

The parent of a path is its text up to the end of the last component but one. What
stands between the two components is left out, and what comes before is kept as it
was given.

* `Path.components_parent?` — going outwards takes away the last component.
* `Path.ancestors` — a path and the paths around it, nearest first.
-/

namespace ModuleLookup

namespace Path

/-- Segments up to the last one that stands for a component. -/
def trimSegments : List (List Char) → List (List Char)
  | [] => []
  | s :: ss =>
    match trimSegments ss with
    | [] => if (Component.ofSegment? s).isSome then [s] else []
    | t :: ts => s :: t :: ts

/-- The text that starts with the segment `s`. Nothing at all is the root. -/
def joinSegments : List Char → List (List Char) → List Char
  | [], [] => ['/']
  | s, ss => s ++ ss.flatMap ('/' :: ·)

/-- The path without its last component. The root and the empty path have no parent. -/
def parent? (p : Path) : Option Path :=
  match segments p.text.toList with
  | [] => none
  | s :: ss =>
    match trimSegments ss with
    | [] => if s = [] then none else some ⟨""⟩
    | t :: ts => some ⟨String.ofList (joinSegments s (trimSegments (t :: ts).dropLast))⟩

/-! ## Segments of a text -/

/-- Segments hold no separator. -/
theorem not_mem_of_mem_segments {cs s : List Char} (h : s ∈ segments cs) : '/' ∉ s := by
  induction cs generalizing s with
  | nil =>
    obtain rfl : s = [] := by simpa [segments] using h
    simp
  | cons c cs ih =>
    rw [segments] at h
    split at h
    · rcases List.mem_cons.1 h with rfl | h
      · simp
      · exact ih h
    · next hc =>
      split at h
      · next hs =>
        obtain rfl : s = [c] := by simpa using h
        simpa using Ne.symm hc
      · next t ts hs =>
        rcases List.mem_cons.1 h with rfl | h
        · have ht : '/' ∉ t := ih (hs ▸ List.mem_cons_self)
          simp [ht, Ne.symm hc]
        · exact ih (hs ▸ List.mem_cons_of_mem t h)

/-- A text without a separator is one segment. -/
theorem segments_eq_singleton {s : List Char} (h : '/' ∉ s) : segments s = [s] := by
  induction s with
  | nil => rfl
  | cons c s ih =>
    have hc : c ≠ '/' := fun hc => h (hc ▸ List.mem_cons_self)
    simp [segments, hc, ih fun hs => h (List.mem_cons_of_mem c hs)]

/-- A separator ends the first segment. -/
theorem segments_append {s : List Char} (h : '/' ∉ s) (cs : List Char) :
    segments (s ++ '/' :: cs) = s :: segments cs := by
  induction s with
  | nil => simp [segments]
  | cons c s ih =>
    have hc : c ≠ '/' := fun hc => h (hc ▸ List.mem_cons_self)
    simp [segments, hc, ih fun hs => h (List.mem_cons_of_mem c hs)]

/-- The segments of a text that was joined from segments. -/
theorem segments_append_flatMap {s : List Char} {ss : List (List Char)} (h : '/' ∉ s)
    (hs : ∀ t ∈ ss, '/' ∉ t) : segments (s ++ ss.flatMap ('/' :: ·)) = s :: ss := by
  induction ss generalizing s with
  | nil => rw [List.flatMap_nil, List.append_nil, segments_eq_singleton h]
  | cons t ss ih =>
    rw [List.flatMap_cons, List.cons_append, segments_append h,
      ih (hs t List.mem_cons_self) fun u hu => hs u (List.mem_cons_of_mem t hu)]

/-! ## Trimmed segments -/

/-- What is trimmed off stands for nothing. -/
theorem filterMap_trimSegments (ss : List (List Char)) :
    (trimSegments ss).filterMap Component.ofSegment? = ss.filterMap Component.ofSegment? := by
  fun_induction trimSegments ss with
  | case1 => rfl
  | case2 s ss ht hs ih =>
    rw [ht, List.filterMap_nil] at ih
    simp [List.filterMap_cons, ← ih]
  | case3 s ss ht hs ih =>
    rw [ht, List.filterMap_nil] at ih
    rw [Option.not_isSome_iff_eq_none] at hs
    simp [hs, ← ih]
  | case4 s ss t ts ht ih =>
    rw [ht] at ih
    simp only [List.filterMap_cons, ih]

/-- What is left ends with a component. -/
theorem trimSegments_eq_append {ss : List (List Char)} (h : trimSegments ss ≠ []) :
    ∃ init s c, trimSegments ss = init ++ [s] ∧ Component.ofSegment? s = some c := by
  fun_induction trimSegments ss with
  | case1 => exact absurd rfl h
  | case2 s ss ht hs ih =>
    obtain ⟨c, hc⟩ := Option.isSome_iff_exists.1 hs
    exact ⟨[], s, c, rfl, hc⟩
  | case3 s ss ht hs ih => exact absurd rfl h
  | case4 s ss t ts ht ih =>
    rw [ht] at ih
    obtain ⟨init, u, c, hu, hc⟩ := ih (List.cons_ne_nil t ts)
    exact ⟨s :: init, u, c, by rw [hu, List.cons_append], hc⟩

/-- Trimming leaves no new segment. -/
theorem mem_of_mem_trimSegments {s : List Char} {ss : List (List Char)}
    (h : s ∈ trimSegments ss) : s ∈ ss := by
  fun_induction trimSegments ss with
  | case1 => exact h
  | case2 t ss ht hs ih => exact List.mem_cons.2 (.inl (List.mem_singleton.1 h))
  | case3 t ss ht hs ih => exact absurd h List.not_mem_nil
  | case4 t ss u us ht ih =>
    rw [ht] at ih
    rcases List.mem_cons.1 h with rfl | h
    · exact List.mem_cons_self
    · exact List.mem_cons_of_mem t (ih h)

/-! ## Components of parents -/

/-- The components of a text with these segments. -/
theorem componentsOf_eq {cs s : List Char} {ss : List (List Char)} (h : segments cs = s :: ss) :
    componentsOf cs
      = (startComponent? s ss).toList ++ ss.filterMap Component.ofSegment? := by
  rw [componentsOf, h]

/-- Behind a first segment that is not empty, the others do not matter. -/
theorem startComponent?_eq {s : List Char} (h : s ≠ []) (ss ts : List (List Char)) :
    startComponent? s ss = startComponent? s ts := by
  by_cases hs : s = ['.']
  · subst hs
    rfl
  · simp [startComponent?, h]

/-- A first segment that is not empty is a component. -/
theorem exists_startComponent?_eq_some {s : List Char} (h : s ≠ []) (ss : List (List Char)) :
    ∃ c, startComponent? s ss = some c := by
  fun_cases startComponent? s ss with
  | case1 => exact absurd rfl h
  | case2 => exact absurd rfl h
  | case3 => exact ⟨.current, rfl⟩
  | case4 _ _ _ _ hs =>
    fun_cases Component.ofSegment? s with
    | case1 => exact absurd rfl h
    | case2 => exact (hs rfl).elim
    | case3 => exact ⟨.parent, rfl⟩
    | case4 => exact ⟨.name (String.ofList s), rfl⟩

/-- The components of a text that was joined from segments are those of any path with
the same first segment and separators behind it. -/
theorem componentsOf_joinSegments {s : List Char} {ss : List (List Char)} (h : '/' ∉ s)
    (hs : ∀ u ∈ ss, '/' ∉ u) (t : List Char) (ts : List (List Char)) :
    componentsOf (joinSegments s ss)
      = (startComponent? s (t :: ts)).toList ++ ss.filterMap Component.ofSegment? := by
  unfold joinSegments
  split
  · rfl
  · next hj =>
    rw [componentsOf_eq (segments_append_flatMap h hs)]
    by_cases h0 : s = []
    · subst h0
      cases ss with
      | nil => exact absurd rfl (hj rfl)
      | cons u us => rfl
    · rw [startComponent?_eq h0 ss (t :: ts)]

/-- The parent has all components but one, which is the last. -/
theorem components_eq_append_of_parent? {p q : Path} (h : p.parent? = some q) :
    ∃ c, p.components = q.components ++ [c] := by
  unfold parent? at h
  split at h
  · cases h
  · next s ss hp =>
    have hmem {u : List Char} (hu : u ∈ s :: ss) : '/' ∉ u := not_mem_of_mem_segments (hp ▸ hu)
    have hf := filterMap_trimSegments ss
    rw [components, componentsOf_eq hp, ← hf]
    split at h
    · next ht =>
      split at h
      · cases h
      · next hs =>
        obtain ⟨c, hc⟩ := exists_startComponent?_eq_some hs ss
        cases h
        exact ⟨c, by rw [hc, ht]; rfl⟩
    · next t ts ht =>
      obtain ⟨init, u, c, hu, hc⟩ := trimSegments_eq_append (ht ▸ List.cons_ne_nil t ts)
      cases h
      cases ss with
      | nil => exact absurd ht.symm (List.cons_ne_nil t ts)
      | cons v vs =>
        have hinit {w : List Char} (hw : w ∈ trimSegments init) : '/' ∉ w := by
          refine hmem (List.mem_cons_of_mem s (mem_of_mem_trimSegments ?_))
          rw [hu]
          exact List.mem_append_left [u] (mem_of_mem_trimSegments hw)
        refine ⟨c, ?_⟩
        rw [components, String.toList_ofList, ← ht, hu, List.dropLast_concat,
          componentsOf_joinSegments (hmem List.mem_cons_self) (fun w hw => hinit hw) v vs,
          filterMap_trimSegments, List.filterMap_append, List.append_assoc,
          List.filterMap_cons_some hc, List.filterMap_nil]

/-- A path and the paths around it, nearest first. -/
def ancestors (p : Path) : List Path :=
  match _h : p.parent? with
  | none => [p]
  | some q => p :: q.ancestors
termination_by p.components.length
decreasing_by
  obtain ⟨c, hc⟩ := components_eq_append_of_parent? _h
  rw [hc, List.length_append]
  exact Nat.lt_succ_self q.components.length

end Path

end ModuleLookup
