import Mathlib.Data.List.Infix
import ModuleLookup.Proofs.Path.Canonical

/-!
# Ancestors of normal forms

The normal form of an absolute path is the way to a place, written down from the root. Going
outwards takes the last name off its text and leaves a normal form, so the ancestors of a normal
form are the ways to the places around it.

* `Path.atPlace` — the path to a place; `Path.normalize_of_isAbsolute` — every absolute normal
  form is one, to where its path leads.
* `Path.parent?_atPlace_cons` — going outwards from a place leads to the next place around it.
* `Path.ancestors_atPlace` — so the ancestors are the paths to all places around, nearest first.
-/

namespace ModuleLookup

namespace Path

/-- The path to a place from the root. A place is given by the names on the way to it, innermost
first. -/
def atPlace (names : List String) : Path :=
  ofComponents (.root :: (names.map Component.name).reverse)

/-! ## Paths to places -/

theorem settled_place {names : List String} (h : ∀ s ∈ names, ProperName s) :
    Settled (names.map Component.name ++ [.root]) := by
  apply settled_append_root
  intro c hc
  obtain ⟨s, hs, rfl⟩ := List.mem_map.1 hc
  exact ⟨h s hs, Component.noConfusion⟩

theorem components_atPlace {names : List String} (h : ∀ s ∈ names, ProperName s) :
    (atPlace names).components = .root :: (names.map Component.name).reverse := by
  have hc := components_ofComponents (settled_place h)
  rw [List.reverse_append] at hc
  exact hc

theorem atPlace_cons (s : String) (names : List String) :
    atPlace (s :: names) = (atPlace names).join ⟨s⟩ := by
  rw [atPlace, List.map_cons, List.reverse_cons, ← List.cons_append, ofComponents_append]
  rfl

/-- Different places have different paths. -/
theorem atPlace_inj {names others : List String} (h : ∀ s ∈ names, ProperName s)
    (ho : ∀ s ∈ others, ProperName s) : atPlace names = atPlace others ↔ names = others := by
  refine ⟨fun heq => ?_, fun heq => by rw [heq]⟩
  have hc := congrArg components heq
  rw [components_atPlace h, components_atPlace ho, List.cons.injEq, List.reverse_inj] at hc
  exact List.map_inj_right (fun s t hst => Component.name.inj hst) |>.1 hc.2

/-- The place that an absolute path leads to has names that a path can hold, and its path is the
normal form. -/
theorem normalize_of_isAbsolute {p : Path} (h : p.isAbsolute = true) :
    (∀ s ∈ p.lead [], ProperName s) ∧ p.normalize = atPlace (p.lead []) := by
  obtain ⟨names, hnames, hcs⟩ := exists_normalComponents_eq p
  have hroot := root_mem_normalComponents_iff.2 h
  rcases hcs with hcs | ⟨n, hcs⟩
  · rw [lead_of_root hcs]
    refine ⟨fun s hs => hnames s (List.mem_reverse.1 hs), ?_⟩
    rw [normalize_of_ne_nil (List.ne_nil_of_mem hroot), hcs, atPlace, List.map_reverse,
      List.reverse_reverse]
  · rw [hcs] at hroot
    rcases List.mem_append.1 hroot with hroot | hroot
    · cases List.eq_of_mem_replicate hroot
    · obtain ⟨s, -, hs⟩ := List.mem_map.1 hroot
      cases hs

/-! ## Going outwards -/

/-- Where every segment stands for a component, nothing is trimmed off. -/
theorem trimSegments_eq_self {ss : List (List Char)}
    (h : ∀ s ∈ ss, (Component.ofSegment? s).isSome = true) : trimSegments ss = ss := by
  induction ss with
  | nil => rfl
  | cons s ss ih =>
    rw [trimSegments, ih fun t ht => h t (List.mem_cons_of_mem s ht)]
    cases ss with
    | nil => exact if_pos (h s List.mem_cons_self)
    | cons t ts => rfl

/-- Nothing is trimmed off when the last segment stands for a component. -/
theorem trimSegments_concat {u : List Char} (hu : (Component.ofSegment? u).isSome = true)
    (ss : List (List Char)) : trimSegments (ss ++ [u]) = ss ++ [u] := by
  induction ss with
  | nil => exact if_pos hu
  | cons s ss ih =>
    rw [List.cons_append, trimSegments, ih]
    cases ss with
    | nil => rfl
    | cons t ts => rfl

/-- The parent has the segments in front of the last one, as far as they stand for something. -/
theorem parent?_concat {p : Path} {s u : List Char} {ss : List (List Char)}
    (hp : segments p.text.toList = s :: (ss ++ [u]))
    (hu : (Component.ofSegment? u).isSome = true) :
    p.parent? = some ⟨String.ofList (joinSegments s (trimSegments ss))⟩ := by
  unfold parent?
  rw [hp]
  dsimp only
  rw [trimSegments_concat hu]
  obtain ⟨t, ts, ht⟩ := List.exists_cons_of_ne_nil
    (List.append_ne_nil_of_right_ne_nil ss (List.cons_ne_nil u []))
  rw [ht]
  dsimp only
  rw [← ht, List.dropLast_concat]

/-- The parent has all segments but the last, where each of them stands for a component. -/
theorem parent?_of_segments {p : Path} {s u : List Char} {ss : List (List Char)}
    (hp : segments p.text.toList = s :: (ss ++ [u]))
    (h : ∀ t ∈ ss ++ [u], (Component.ofSegment? t).isSome = true) :
    p.parent? = some ⟨String.ofList (joinSegments s ss)⟩ := by
  rw [parent?_concat hp (h u (List.mem_append_right ss (List.mem_singleton_self u))),
    trimSegments_eq_self fun t ht => h t (List.mem_append_left [u] ht)]

theorem isSome_ofSegment?_of_properName {s : String} (h : ProperName s) :
    (Component.ofSegment? s.toList).isSome = true := by
  rw [Component.ofSegment?_of_properName h]
  rfl

theorem isSome_ofSegment?_segment {c : Component} (h : c.Inner) :
    (Component.ofSegment? c.segment).isSome = true := by
  cases c with
  | name s =>
    rw [Component.Inner.segment_eq h]
    exact isSome_ofSegment?_of_properName h
  | parent => rfl
  | root => exact h.elim
  | current => exact h.elim

/-- **Going outwards** from a place leads to the next place around it. -/
theorem parent?_atPlace_cons {s : String} {names : List String}
    (h : ∀ t ∈ s :: names, ProperName t) :
    (atPlace (s :: names)).parent? = some (atPlace names) := by
  have hinner : ∀ c ∈ (s :: names).map Component.name, c.Inner := by
    intro c hc
    obtain ⟨t, ht, rfl⟩ := List.mem_map.1 hc
    exact h t ht
  have hsegments : segments (atPlace (s :: names)).text.toList
      = [] :: ((names.map Component.name).reverse.map Component.segment
        ++ [Component.segment (.name s)]) := by
    rw [atPlace, segments_ofComponents (.inl rfl) (fun c hc => hinner c (List.mem_reverse.1 hc))
      (.inr (by simp))]
    simp [Component.segment]
  have htext := @toList_ofComponents .root (names.map Component.name) (.inl rfl)
    fun c hc => hinner c (List.mem_cons_of_mem _ hc)
  rw [parent?_of_segments hsegments]
  · change some (Path.mk (String.ofList (joinSegments Component.root.segment _))) = _
    rw [← htext, String.ofList_toList]
    rfl
  · intro t ht
    rw [← List.map_singleton, ← List.map_append] at ht
    obtain ⟨c, hc, rfl⟩ := List.mem_map.1 ht
    refine isSome_ofSegment?_segment (hinner c ?_)
    rw [List.map_cons, List.mem_cons]
    rcases List.mem_append.1 hc with hc | hc
    · exact .inr (List.mem_reverse.1 hc)
    · exact .inl (List.mem_singleton.1 hc)

/-- **The ancestors of a normal form** are the paths to all places around, nearest first. -/
theorem ancestors_atPlace {names : List String} (h : ∀ s ∈ names, ProperName s) :
    (atPlace names).ancestors = names.tails.map atPlace := by
  induction names with
  | nil =>
    rw [ancestors]
    rfl
  | cons s names ih =>
    rw [ancestors]
    split
    · next hp =>
      rw [parent?_atPlace_cons h] at hp
      cases hp
    · next q hp =>
      rw [parent?_atPlace_cons h] at hp
      obtain rfl := Option.some.inj hp
      rw [ih fun t ht => h t (List.mem_cons_of_mem s ht), List.tails_cons, List.map_cons]

end Path

end ModuleLookup
