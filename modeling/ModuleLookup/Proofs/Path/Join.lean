import ModuleLookup.Path.Parent

/-!
# Joined paths

What a path means is its components, and joining respects that: a relative path written
behind another adds its own components.

* `Path.components_join` — the components of a joined path.
* `Path.Same.normalComponents_eq` — the normal form shows nothing but the components.
-/

namespace ModuleLookup

/-! ## Text behind a separator -/

theorem segments_ne_nil (cs : List Char) : segments cs ≠ [] := by
  cases cs with
  | nil => simp [segments]
  | cons c cs =>
    rw [segments]
    split
    · simp
    · split <;> simp

/-- A separator cuts the segments in two. -/
theorem segments_append_separator (cs ds : List Char) :
    segments (cs ++ '/' :: ds) = segments cs ++ segments ds := by
  induction cs with
  | nil => simp [segments]
  | cons c cs ih =>
    rw [List.cons_append, segments, segments, ih]
    split
    · rfl
    · rcases hs : segments cs with _ | ⟨s, ss⟩
      · exact absurd hs (segments_ne_nil cs)
      · rfl

/-- A separator at the end adds an empty segment. -/
theorem segments_append_slash {cs s : List Char} {ss : List (List Char)}
    (hs : segments cs = s :: ss) : segments (cs ++ ['/']) = s :: (ss ++ [[]]) := by
  rw [segments_append_separator, hs]
  rfl

/-- An empty segment stands for no component. -/
theorem filterMap_append_empty (ss : List (List Char)) :
    (ss ++ [[]]).filterMap Component.ofSegment? = ss.filterMap Component.ofSegment? := by
  rw [List.filterMap_append]
  exact List.append_nil _

/-- Only the empty text is a single empty segment. -/
theorem eq_nil_of_segments {cs : List Char} (h : segments cs = [[]]) : cs = [] := by
  cases cs with
  | nil => rfl
  | cons c cs =>
    rw [segments] at h
    split at h
    · exact absurd (List.cons.inj h).2 (segments_ne_nil cs)
    · split at h <;> cases h

/-- Behind a first segment, what the others are does not matter, only whether there are
any. -/
theorem startComponent?_of_ne_nil (s : List Char) {ss ts : List (List Char)} (hs : ss ≠ [])
    (ht : ts ≠ []) : startComponent? s ss = startComponent? s ts := by
  by_cases h : s = []
  · subst h
    cases ss with
    | nil => exact absurd rfl hs
    | cons _ _ =>
      cases ts with
      | nil => exact absurd rfl ht
      | cons _ _ => rfl
  · exact Path.startComponent?_eq h ss ts

/-- A separator at the end is not a component. -/
theorem componentsOf_append_slash {cs : List Char} (h : cs ≠ []) :
    componentsOf (cs ++ ['/']) = componentsOf cs := by
  rcases hs : segments cs with _ | ⟨s, ss⟩
  · exact absurd hs (segments_ne_nil cs)
  · have hstart : startComponent? s (ss ++ [[]]) = startComponent? s ss := by
      -- only an empty first segment looks at what comes behind it
      by_cases h0 : s = []
      · subst h0
        have hss : ss ≠ [] := by
          rintro rfl
          exact h (eq_nil_of_segments hs)
        exact startComponent?_of_ne_nil [] (by simp) hss
      · exact Path.startComponent?_eq h0 _ _
    rw [Path.componentsOf_eq (segments_append_slash hs), Path.componentsOf_eq hs, hstart,
      filterMap_append_empty]

/-- What stands behind a separator adds the components of its segments. -/
theorem componentsOf_append_separator (cs ds : List Char) :
    componentsOf (cs ++ '/' :: ds)
      = componentsOf (cs ++ ['/']) ++ (segments ds).filterMap Component.ofSegment? := by
  rcases hs : segments cs with _ | ⟨s, ss⟩
  · exact absurd hs (segments_ne_nil cs)
  · have hds : segments (cs ++ '/' :: ds) = s :: (ss ++ segments ds) := by
      rw [segments_append_separator, hs]
      rfl
    have hstart : startComponent? s (ss ++ segments ds) = startComponent? s (ss ++ [[]]) :=
      startComponent?_of_ne_nil s
        (fun h => segments_ne_nil ds (List.append_eq_nil_iff.1 h).2) (by simp)
    rw [Path.componentsOf_eq hds, Path.componentsOf_eq (segments_append_slash hs), hstart,
      filterMap_append_empty, List.filterMap_append, List.append_assoc]

/-- Every text but the empty one has components. -/
theorem componentsOf_eq_nil_iff {cs : List Char} : componentsOf cs = [] ↔ cs = [] := by
  constructor
  · intro h
    rcases hs : segments cs with _ | ⟨s, ss⟩
    · exact absurd hs (segments_ne_nil cs)
    · rw [Path.componentsOf_eq hs, List.append_eq_nil_iff, Option.toList_eq_nil_iff] at h
      by_cases h0 : s = []
      · subst h0
        cases ss with
        | nil => exact eq_nil_of_segments hs
        | cons _ _ => cases h.1
      · obtain ⟨c, hc⟩ := Path.exists_startComponent?_eq_some h0 ss
        rw [hc] at h
        cases h.1
  · rintro rfl
    rfl

namespace Path

/-! ## Components of a join -/

/-- The components that a relative path adds behind another path. -/
def added (p : Path) : List Component :=
  (segments p.text.toList).filterMap Component.ofSegment?

theorem join_of_isAbsolute {base add : Path} (h : add.isAbsolute = true) :
    base.join add = add := by
  rw [join, if_pos h]

theorem components_eq_nil_iff {p : Path} : p.components = [] ↔ p.text = "" := by
  rw [components, componentsOf_eq_nil_iff, String.toList_eq_nil_iff]

/-- Behind nothing a relative path stays what it is. -/
theorem join_of_text_eq_empty {base add : Path} (hb : base.text = "") : base.join add = add := by
  rw [join]
  split
  · rfl
  · rw [hb]
    simp [String.back?_eq]

/-- **Components of a join**: a relative path adds its own behind those of the base. -/
theorem components_join {base add : Path} (hb : base.text ≠ "") (ha : add.isAbsolute = false) :
    (base.join add).components = base.components ++ add.added := by
  have hb' : base.text.toList ≠ [] := fun h => hb (String.toList_eq_nil_iff.1 h)
  rw [join, ha, if_neg Bool.false_ne_true, String.back?_eq]
  split
  · next h => exact absurd (List.getLast?_eq_none_iff.1 h) hb'
  · next h =>
    -- the base ends in a separator: nothing is written in between
    obtain ⟨cs, hcs⟩ := List.getLast?_eq_some_iff.1 h
    rw [components, components, added, String.toList_append, hcs, List.append_assoc,
      List.singleton_append, componentsOf_append_separator]
  · rw [components, components, added, String.toList_append, String.toList_append,
      List.append_assoc, show "/".toList = ['/'] from rfl, List.singleton_append,
      componentsOf_append_separator, componentsOf_append_slash hb']

/-- What a path means decides its normal form. -/
theorem Same.normalComponents_eq {p q : Path} (h : p.Same q) :
    p.normalComponents = q.normalComponents := by
  rw [normalComponents, normalComponents, h]

end Path

end ModuleLookup
