import ModuleLookup.Proofs.Path.Lead

/-!
# Normal forms are canonical

A normal form keeps what a path means and shows nothing else: not how often a separator was
written, not where a `.` stood, not which names were entered and left again. What stands in its
text is needed.

* `Path.toList_ofComponents` and `Path.segments_ofComponents` — the text of components that are
  in order, and its segments, one for each component.
* `Path.NormalText` — what the text of a normal form looks like; `Path.normalText_normalize`.
* `Path.normalize_canonical` — where normal forms lead, how they are written, and which paths
  have the same one.
-/

namespace ModuleLookup

namespace Component

/-- The segment that a component is written as: the root stands before the first separator. -/
def segment : Component → List Char
  | root => []
  | c => c.text.toList

theorem Inner.segment_eq {c : Component} (h : c.Inner) : c.segment = c.text.toList := by
  cases c with
  | root => exact h.elim
  | _ => rfl

theorem Inner.segment_ne_nil {c : Component} (h : c.Inner) : c.segment ≠ [] := by
  cases c with
  | name s => exact h.1.1
  | parent => decide
  | root => exact h.elim
  | current => exact h.elim

theorem Inner.not_mem_segment {c : Component} (h : c.Inner) : '/' ∉ c.segment := by
  rw [h.segment_eq]
  exact Path.not_mem_text h

end Component

namespace Path

/-! ## Joined segments -/

/-- A text is its segments with separators between them. -/
theorem eq_append_flatMap_of_segments {cs s : List Char} {ss : List (List Char)}
    (h : segments cs = s :: ss) : cs = s ++ ss.flatMap ('/' :: ·) := by
  induction cs generalizing s ss with
  | nil =>
    obtain ⟨rfl, rfl⟩ := List.cons.inj h
    rfl
  | cons c cs ih =>
    rw [segments] at h
    rcases hcs : segments cs with _ | ⟨t, ts⟩
    · exact absurd hcs (segments_ne_nil cs)
    · have htext := ih hcs
      split at h
      · next hc =>
        obtain ⟨rfl, rfl⟩ := List.cons.inj h
        rw [hcs, List.flatMap_cons, List.nil_append, List.cons_append, ← htext, hc]
      · rw [hcs] at h
        obtain ⟨rfl, rfl⟩ := List.cons.inj h
        rw [List.cons_append, ← htext]

theorem joinSegments_of_ne {s : List Char} {ss : List (List Char)} (h : s ≠ [] ∨ ss ≠ []) :
    joinSegments s ss = s ++ ss.flatMap ('/' :: ·) := by
  rw [joinSegments]
  rintro rfl rfl
  exact h.elim (fun h => h rfl) fun h => h rfl

theorem joinSegments_ne_nil (s : List Char) (ss : List (List Char)) : joinSegments s ss ≠ [] := by
  fun_cases joinSegments s ss with
  | case1 => exact List.cons_ne_nil _ _
  | case2 s ss h =>
    intro hnil
    obtain ⟨rfl, hflat⟩ := List.append_eq_nil_iff.1 hnil
    cases ss with
    | nil => exact h rfl rfl
    | cons t ss => cases hflat

/-- One more segment stands behind one more separator. -/
theorem joinSegments_concat {s : List Char} {ss : List (List Char)} (h : s ≠ [] ∨ ss ≠ [])
    (t : List Char) : joinSegments s (ss ++ [t]) = joinSegments s ss ++ '/' :: t := by
  have hconcat : ss ++ [t] ≠ [] := List.append_ne_nil_of_right_ne_nil ss (List.cons_ne_nil t [])
  rw [joinSegments_of_ne h, joinSegments_of_ne (.inr hconcat), List.flatMap_append,
    List.flatMap_singleton, List.append_assoc]

/-- A text that ends with a segment does not end with a separator. -/
theorem getLast?_append_ne_slash {s : List Char} (hne : s ≠ []) (hs : '/' ∉ s) (cs : List Char) :
    (cs ++ s).getLast? ≠ some '/' := by
  intro h
  rw [List.getLast?_append, List.getLast?_eq_some_getLast hne, Option.some_or] at h
  exact hs (Option.some.inj h ▸ List.getLast_mem hne)

/-- Segments are joined to a text that does not end with a separator, unless it is one. -/
theorem getLast?_joinSegments {s : List Char} {ss : List (List Char)} (h : s ≠ [] ∨ ss ≠ [])
    (hs : '/' ∉ s) (hss : ∀ t ∈ ss, t ≠ [] ∧ '/' ∉ t) :
    (joinSegments s ss).getLast? ≠ some '/' := by
  rw [joinSegments_of_ne h]
  rcases List.eq_nil_or_concat ss with rfl | ⟨init, t, rfl⟩
  · have hne : s ≠ [] := h.resolve_right fun h => h rfl
    rw [List.flatMap_nil, List.append_nil]
    exact getLast?_append_ne_slash hne hs []
  · have ht := hss t (by simp)
    rw [List.concat_eq_append, List.flatMap_append, List.flatMap_singleton, ← List.append_assoc,
      List.append_cons]
    exact getLast?_append_ne_slash ht.1 ht.2 _

/-- A separator is written behind a path that does not end with one. -/
theorem toList_join {base add : Path} (hb : base.text ≠ "")
    (hslash : base.text.toList.getLast? ≠ some '/') (ha : add.isAbsolute = false) :
    (base.join add).text.toList = base.text.toList ++ '/' :: add.text.toList := by
  rw [join, ha, if_neg Bool.false_ne_true, String.back?_eq]
  split
  · next h => exact absurd (String.toList_eq_nil_iff.1 (List.getLast?_eq_none_iff.1 h)) hb
  · next h => exact absurd h hslash
  · rw [String.toList_append, String.toList_append, List.append_assoc]
    rfl

/-! ## Written components -/

/-- Components are written with one separator between any two. -/
theorem toList_ofComponents {start : Component} {stack : List Component}
    (hstart : start = .root ∨ start.Inner) (h : ∀ c ∈ stack, c.Inner) :
    (ofComponents (start :: stack.reverse)).text.toList
      = joinSegments start.segment (stack.reverse.map Component.segment) := by
  have hslash : '/' ∉ start.segment := by
    rcases hstart with rfl | hstart
    · exact List.not_mem_nil
    · exact hstart.not_mem_segment
  induction stack with
  | nil =>
    rcases hstart with rfl | hstart
    · rfl
    · rw [List.reverse_nil, List.map_nil, joinSegments_of_ne (.inl hstart.segment_ne_nil),
        List.flatMap_nil, List.append_nil, hstart.segment_eq]
      exact congrArg (fun p => p.text.toList) (join_of_text_eq_empty rfl)
  | cons c below ih =>
    have hc := h c List.mem_cons_self
    have hbelow (b) (hb : b ∈ below) : b.Inner := h b (List.mem_cons_of_mem c hb)
    have ih := ih hbelow
    have habs := isAbsolute_text hc
    rw [List.reverse_cons, ← List.cons_append, ofComponents_append, List.map_append]
    rw [List.map_singleton, hc.segment_eq]
    by_cases hroot : start.segment = [] ∧ below = []
    · -- right behind the root the separator is there already
      obtain ⟨hroot, rfl⟩ := hroot
      obtain rfl := hstart.resolve_right fun h => h.segment_ne_nil hroot
      change (join ⟨"/"⟩ ⟨c.text⟩).text.toList = '/' :: (c.text.toList ++ [])
      rw [join, habs, if_neg Bool.false_ne_true, String.back?_eq, List.append_nil]
      change ("/" ++ c.text).toList = '/' :: c.text.toList
      rw [String.toList_append]
      rfl
    · have hne : start.segment ≠ [] ∨ below.reverse.map Component.segment ≠ [] := by
        by_cases hs : start.segment = []
        · right
          rw [Ne, List.map_eq_nil_iff, List.reverse_eq_nil_iff]
          exact fun hb => hroot ⟨hs, hb⟩
        · exact .inl hs
      have hsegments : ∀ t ∈ below.reverse.map Component.segment, t ≠ [] ∧ '/' ∉ t := by
        intro t ht
        obtain ⟨b, hb, rfl⟩ := List.mem_map.1 ht
        have hb := hbelow b (List.mem_reverse.1 hb)
        exact ⟨hb.segment_ne_nil, hb.not_mem_segment⟩
      have hends := getLast?_joinSegments hne hslash hsegments
      have htext : (ofComponents (start :: below.reverse)).text ≠ "" := by
        rw [Ne, ← String.toList_eq_nil_iff, ih]
        exact joinSegments_ne_nil _ _
      rw [← ih] at hends
      rw [toList_join htext hends habs, ih, joinSegments_concat hne]

/-- So the segments of the text are the components again, one for one. -/
theorem segments_ofComponents {start : Component} {cs : List Component}
    (hstart : start = .root ∨ start.Inner) (h : ∀ c ∈ cs, c.Inner)
    (hne : start.segment ≠ [] ∨ cs ≠ []) :
    segments (ofComponents (start :: cs)).text.toList = (start :: cs).map Component.segment := by
  have hslash : '/' ∉ start.segment := by
    rcases hstart with rfl | hstart
    · exact List.not_mem_nil
    · exact hstart.not_mem_segment
  have htext := @toList_ofComponents start cs.reverse hstart
    fun c hc => h c (List.mem_reverse.1 hc)
  rw [List.reverse_reverse] at htext
  have hne : start.segment ≠ [] ∨ cs.map Component.segment ≠ [] :=
    hne.imp_right fun hcs hnil => hcs (List.map_eq_nil_iff.1 hnil)
  rw [htext, joinSegments_of_ne hne, segments_append_flatMap hslash]
  · rfl
  · intro t ht
    obtain ⟨c, hc, rfl⟩ := List.mem_map.1 ht
    exact (h c hc).not_mem_segment

/-! ## Texts of normal forms -/

/-- A text as a normal form is written. -/
structure NormalText (cs : List Char) : Prop where
  /-- a `.` stands alone -/
  dot : ['.'] ∈ segments cs → cs = ['.']
  /-- what stands before a `..` is another one, no name and not the root -/
  climb : ∀ before s after, segments cs = before ++ s :: ['.', '.'] :: after → s = ['.', '.']
  /-- the root is the only text with a separator at its end, and none is repeated -/
  separators : cs = ['/'] ∨ ¬['/', '/'] <:+: cs ∧ cs.getLast? ≠ some '/'

theorem segment_ne_dot {c : Component} (h : c = .root ∨ c.Inner) : c.segment ≠ ['.'] := by
  rcases h with rfl | h
  · decide
  · cases c with
    | name s => exact h.1.2.1
    | parent => decide
    | root => exact h.elim
    | current => exact h.elim

/-- Components are written as a normal form if they are in order. -/
theorem normalText_ofComponents {start : Component} {cs : List Component}
    (hstart : start = .root ∨ start.Inner) (h : ∀ c ∈ cs, c.Inner)
    (hclimb : ∀ before s after, (start :: cs).map Component.segment
      = before ++ s :: ['.', '.'] :: after → s = ['.', '.']) :
    NormalText (ofComponents (start :: cs)).text.toList := by
  by_cases hroot : start.segment = [] ∧ cs = []
  · obtain ⟨hroot, rfl⟩ := hroot
    obtain rfl := hstart.resolve_right fun h => h.segment_ne_nil hroot
    refine ⟨fun hdot => absurd hdot (by decide), fun before s after hs => ?_, .inl rfl⟩
    have hmem : ['.', '.'] ∈ segments ['/'] := by
      rw [show segments ['/'] = _ from hs]
      simp
    exact absurd hmem (by decide)
  · have hne : start.segment ≠ [] ∨ cs ≠ [] := by
      by_cases hs : start.segment = []
      · exact .inr fun hcs => hroot ⟨hs, hcs⟩
      · exact .inl hs
    have hsegments := segments_ofComponents hstart h hne
    have htail : ∀ t ∈ cs.map Component.segment, t ≠ [] := by
      intro t ht
      obtain ⟨c, hc, rfl⟩ := List.mem_map.1 ht
      exact (h c hc).segment_ne_nil
    refine ⟨fun hdot => ?_, fun before s after hs => ?_, .inr ⟨?_, fun hlast => ?_⟩⟩
    · rw [hsegments] at hdot
      obtain ⟨c, hc, heq⟩ := List.mem_map.1 hdot
      refine absurd heq (segment_ne_dot ?_)
      rcases List.mem_cons.1 hc with rfl | hc
      · exact hstart
      · exact .inr (h c hc)
    · rw [hsegments] at hs
      exact hclimb before s after hs
    · rintro ⟨before, after, hcut⟩
      -- between two separators there would be an empty segment
      rw [← hcut, List.append_assoc, List.cons_append, segments_append_separator,
        List.map_cons] at hsegments
      obtain ⟨t, ts, ht⟩ := List.exists_cons_of_ne_nil (segments_ne_nil before)
      rw [ht, List.cons_append] at hsegments
      refine htail [] ?_ rfl
      rw [← (List.cons.inj hsegments).2]
      exact List.mem_append_right ts List.mem_cons_self
    · obtain ⟨front, hfront⟩ := List.getLast?_eq_some_iff.1 hlast
      obtain ⟨t, ts, ht⟩ := List.exists_cons_of_ne_nil (segments_ne_nil front)
      rw [hfront, segments_append_slash ht, List.map_cons] at hsegments
      refine htail [] ?_ rfl
      rw [← (List.cons.inj hsegments).2]
      exact List.mem_append_right ts List.mem_cons_self

/-- Behind some copies of `a` and then others, only a copy stands before a copy. -/
theorem eq_of_replicate_append_eq {α : Type} {a s : α} {n : Nat} {others before after : List α}
    (ha : a ∉ others) (h : List.replicate n a ++ others = before ++ s :: a :: after) : s = a := by
  induction n generalizing before with
  | zero =>
    rw [List.replicate_zero, List.nil_append] at h
    exact absurd (by rw [h]; simp) ha
  | succ n ih =>
    rw [List.replicate_succ, List.cons_append] at h
    cases before with
    | nil => exact (List.cons.inj h).1.symm
    | cons b before => exact ih (List.cons.inj h).2

/-- **The text of a normal form.** -/
theorem normalText_normalize (p : Path) : NormalText p.normalize.text.toList := by
  obtain ⟨names, hnames, hcs⟩ := exists_normalComponents_eq p
  have hinner : ∀ c ∈ names.map Component.name, c.Inner := by
    intro c hc
    obtain ⟨s, hs, rfl⟩ := List.mem_map.1 hc
    exact hnames s hs
  have hdots : ['.', '.'] ∉ (names.map Component.name).map Component.segment := by
    intro hmem
    rw [List.map_map] at hmem
    obtain ⟨s, hs, heq⟩ := List.mem_map.1 hmem
    exact (hnames s hs).1.2.2 heq
  rcases hcs with hcs | ⟨n, hcs⟩
  · rw [normalize_of_ne_nil (hcs ▸ List.cons_ne_nil _ _), hcs]
    refine normalText_ofComponents (.inl rfl) hinner fun before s after hs => ?_
    have hroot : ['.', '.'] ∉ (Component.root :: names.map Component.name).map Component.segment :=
      List.not_mem_cons_of_ne_of_not_mem (List.cons_ne_nil _ _) hdots
    exact eq_of_replicate_append_eq (n := 0) hroot hs
  · rcases hnil : List.replicate n Component.parent ++ names.map Component.name with _ | ⟨start, cs⟩
    · rw [normalize_of_eq_nil (hcs.trans hnil)]
      have hdot : ['.', '.'] ∉ segments ['.'] := by decide
      exact ⟨fun _ => rfl, fun before s after hs => eq_of_replicate_append_eq (n := 0) hdot hs,
        .inr (by decide)⟩
    · have hall : ∀ c ∈ start :: cs, c.Inner := by
        intro c hc
        rw [← hnil] at hc
        rcases List.mem_append.1 hc with hc | hc
        · rw [List.eq_of_mem_replicate hc]
          trivial
        · exact hinner c hc
      rw [normalize_of_ne_nil (by rw [hcs, hnil]; exact List.cons_ne_nil _ _), hcs, hnil]
      refine normalText_ofComponents (.inr (hall start List.mem_cons_self))
        (fun c hc => hall c (List.mem_cons_of_mem start hc)) fun before s after hs => ?_
      rw [← hnil, List.map_append, List.map_replicate] at hs
      exact eq_of_replicate_append_eq hdots hs

/-! ## Canonical forms -/

/-- Joining the normal forms of two paths leads to where the joined paths lead. -/
theorem normalize_join (base add : Path) :
    (base.join add).normalize = (base.normalize.join add.normalize).normalize := by
  rw [normalize_eq_iff_lead]
  intro names
  rw [lead_join, lead_join, lead_normalize, lead_normalize]

/-- **Normal forms are canonical.** A path leads from every place to where its normal form
leads, and two paths have one normal form just when they lead to the same places; so a normal
form is its own, paths with the same components have the same, and a joined path has the one of
its joined parts. A normal form is written without a needless `.`, `..` or separator. -/
theorem normalize_canonical :
    (∀ (p : Path) (names : List String), p.normalize.lead names = p.lead names) ∧
    (∀ p q : Path, p.normalize = q.normalize ↔ ∀ names, p.lead names = q.lead names) ∧
    (∀ p : Path, p.normalize.normalize = p.normalize) ∧
    (∀ p : Path, NormalText p.normalize.text.toList) ∧
    (∀ p q : Path, p.Same q → p.normalize = q.normalize) ∧
    ∀ base add : Path,
      (base.join add).normalize = (base.normalize.join add.normalize).normalize := by
  refine ⟨lead_normalize, fun p q => normalize_eq_iff_lead, fun p => ?_, normalText_normalize,
    fun p q h => ?_, normalize_join⟩
  · exact normalize_eq_iff_lead.2 (lead_normalize p)
  · exact normalize_eq_iff_lead.2 h.lead_eq

/-- Two spellings of one path. -/
theorem normalize_canonical_spellings :
    Same ⟨"a//./../b/"⟩ ⟨"a/../b"⟩ ∧
      normalize ⟨"a//./../b/"⟩ = normalize ⟨"a/../b"⟩ ∧ normalize ⟨"a/../b"⟩ = ⟨"b"⟩ := by
  have hsame : Same ⟨"a//./../b/"⟩ ⟨"a/../b"⟩ := by decide +kernel
  exact ⟨hsame, normalize_canonical.2.2.2.2.1 _ _ hsame, by decide +kernel⟩

end Path

end ModuleLookup
