import Mathlib.Data.List.Find
import ModuleLookup.Project.Root
import ModuleLookup.Proofs.Disk.Place
import ModuleLookup.Proofs.Path.Ancestors

/-!
# The project around a directory

The root of a project is looked for along the text of a path: its last component is taken off
until a marker stands in what is left. Taking off a name goes outwards, but taking off a `..`
goes back inwards, to a directory that does not lie around the first one. So every directory
around is gone through, from the inside to the outside, and sometimes others in between.

* `Tree.Reaches.parent?` — the text of a path to a directory without its last component leads to a
  directory; `Tree.Reaches.run_projectRoot?` — the root that is found is the first of these
  directories with a marker.
* `Path.exists_find?_ancestors` — no directory around is left out.
* `nearestRoot_iff` — the nearest root is found, unless a directory that a `..` left is taken
  for one; `not_nearestRoot_besideProject` — and this happens.
-/

namespace ModuleLookup

/-! ## Text without the last component -/

namespace Path

/-- Nothing lies around a path without a parent. -/
theorem ancestors_of_parent?_eq_none {p : Path} (h : p.parent? = none) : p.ancestors = [p] := by
  rw [ancestors]
  split
  · rfl
  · next q hq => rw [h] at hq; cases hq

/-- Around any other path lies what lies around its parent. -/
theorem ancestors_of_parent? {p q : Path} (h : p.parent? = some q) :
    p.ancestors = p :: q.ancestors := by
  rw [ancestors]
  split
  · next hnone => rw [h] at hnone; cases hnone
  · next r hr => rw [Option.some.inj (h.symm.trans hr)]

/-- What is trimmed off stands at the end. -/
theorem exists_trimSegments_append (ss : List (List Char)) :
    ∃ rest, ss = trimSegments ss ++ rest := by
  fun_induction trimSegments ss with
  | case1 => exact ⟨[], rfl⟩
  | case2 s ss ht hs ih => exact ⟨ss, rfl⟩
  | case3 s ss ht hs ih => exact ⟨s :: ss, rfl⟩
  | case4 s ss t ts ht ih =>
    obtain ⟨rest, hrest⟩ := ih
    exact ⟨rest, by rw [List.cons_append, ← ht, ← hrest]⟩

variable {p q : Path}

/-- An absolute path starts with an empty segment. -/
theorem exists_segments_of_isAbsolute (h : p.isAbsolute = true) :
    ∃ ss, segments p.text.toList = [] :: ss := by
  obtain ⟨cs, hcs⟩ := List.head?_eq_some_iff.1 (isAbsolute_iff.1 h)
  exact ⟨segments cs, by rw [hcs, segments, if_pos rfl]⟩

/-- The parent of an absolute path is written with some of its segments, but not all of them. -/
theorem exists_segments_of_parent? (ha : p.isAbsolute = true) (h : p.parent? = some q) :
    ∃ front back, segments p.text.toList = [] :: (front ++ back) ∧ back ≠ [] ∧
      q.text.toList = joinSegments [] front := by
  obtain ⟨ss, hss⟩ := exists_segments_of_isAbsolute ha
  obtain ⟨rest, hrest⟩ := exists_trimSegments_append ss
  unfold parent? at h
  rw [hss] at h
  dsimp only at h
  split at h
  · cases h
  · next t ts ht =>
    obtain ⟨between, hbetween⟩ := exists_trimSegments_append (t :: ts).dropLast
    have hlast := List.dropLast_concat_getLast (List.cons_ne_nil t ts)
    cases h
    refine ⟨trimSegments (t :: ts).dropLast,
      between ++ [(t :: ts).getLast (List.cons_ne_nil t ts)] ++ rest, ?_, by simp,
      String.toList_ofList⟩
    rw [hss, ← List.append_assoc, ← List.append_assoc, ← hbetween, hlast, ← ht, ← hrest]

/-- The parent of an absolute path is one. -/
theorem isAbsolute_of_isAbsolute_parent? (ha : p.isAbsolute = true) (h : p.parent? = some q) :
    q.isAbsolute = true := by
  obtain ⟨front, back, -, -, hq⟩ := exists_segments_of_parent? ha h
  rw [isAbsolute_iff, hq]
  cases front <;> rfl

/-- The text of an absolute path goes on where its parent ends. -/
theorem exists_text_eq_append (ha : p.isAbsolute = true) (h : p.parent? = some q) :
    ∃ rest, p.text.toList = q.text.toList ++ rest := by
  obtain ⟨front, back, hp, hback, hq⟩ := exists_segments_of_parent? ha h
  rw [eq_append_flatMap_of_segments hp, hq, List.nil_append, List.flatMap_append]
  cases front with
  | nil =>
    obtain ⟨s, ss, rfl⟩ := List.exists_cons_of_ne_nil hback
    exact ⟨s ++ ss.flatMap ('/' :: ·), rfl⟩
  | cons s front => exact ⟨back.flatMap ('/' :: ·), rfl⟩

/-- An absolute path is walked as far as its parent, and then on. A separator may stand behind the
parent, which is one step more on the spot. -/
theorem exists_steps_of_parent? (ha : p.isAbsolute = true) (h : p.parent? = some q) :
    ∃ front back, p.steps = front ++ back ∧ back ≠ [] ∧
      (q.steps = front ∨ q.steps = front ++ [.current]) := by
  obtain ⟨front, back, hp, hback, hq⟩ := exists_segments_of_parent? ha h
  refine ⟨([] :: front).map stepOf, back.map stepOf, ?_, ?_, ?_⟩
  · rw [steps, hp, ← List.map_append, List.cons_append]
  · exact fun hnil => hback (List.map_eq_nil_iff.1 hnil)
  · cases front with
    | nil =>
      right
      rw [steps, hq]
      rfl
    | cons s front =>
      left
      have hmem : ∀ u ∈ s :: front, '/' ∉ u := fun u hu =>
        not_mem_of_mem_segments (hp ▸ List.mem_cons_of_mem [] (List.mem_append_left back hu))
      rw [steps, hq, joinSegments_of_ne (.inr (List.cons_ne_nil s front)),
        segments_append_flatMap List.not_mem_nil hmem]

/-- A name stands behind a separator, which may be there already. -/
theorem exists_toList_join {m : String} (hm : ProperName m) (hp : p.text ≠ "") :
    ∃ cs, (p.text.toList = cs ∨ p.text.toList = cs ++ ['/']) ∧
      (p.join ⟨m⟩).text.toList = cs ++ '/' :: m.toList := by
  have ha : isAbsolute ⟨m⟩ = false := isAbsolute_of_properName hm
  by_cases hslash : p.text.toList.getLast? = some '/'
  · obtain ⟨cs, hcs⟩ := List.getLast?_eq_some_iff.1 hslash
    refine ⟨cs, .inr hcs, ?_⟩
    rw [join, ha, if_neg Bool.false_ne_true, String.back?_eq, hslash]
    exact (String.toList_append ..).trans (by rw [hcs, List.append_assoc]; rfl)
  · exact ⟨p.text.toList, .inl rfl, toList_join hp hslash ha⟩

/-- So it is one more step, but for a step on the spot. -/
theorem exists_steps_join {m : String} (hm : ProperName m) (hp : p.text ≠ "") :
    ∃ front, (p.steps = front ∨ p.steps = front ++ [.current]) ∧
      (p.join ⟨m⟩).steps = front ++ [.name m] := by
  obtain ⟨cs, hcs, hjoin⟩ := exists_toList_join hm hp
  refine ⟨(segments cs).map stepOf, ?_, ?_⟩
  · rw [steps]
    rcases hcs with hcs | hcs
    · exact .inl (by rw [hcs])
    · exact .inr (by rw [hcs, segments_append_separator, List.map_append]; rfl)
  · rw [steps, hjoin, segments_append_separator, segments_eq_singleton hm.2, List.map_append,
      List.map_singleton, stepOf, Component.ofSegment?_of_properName hm]
    rfl

end Path

/-! ## Directories along a text -/

namespace Tree

variable {t : Tree} {p q : Path}

/-- An absolute path to a directory, with room for a name as long as that of a manifest behind
it. -/
structure Reaches (t : Tree) (p : Path) : Prop where
  /-- it starts at the root -/
  isAbsolute : p.isAbsolute = true
  /-- it can be a path -/
  nul : '\x00' ∉ p.text.toList
  /-- there is room -/
  room : byteLength p.text.toList + byteLength "/package.json".toList ≤ pathLimit
  /-- it leads to a directory -/
  directory : ∃ way entries, t.walk p p.steps = .ok way ∧ t.endOf way = .directory entries

theorem text_ne_empty (h : p.isAbsolute = true) : p.text ≠ "" := by
  intro htext
  rw [Path.isAbsolute, htext] at h
  cases h

/-- A text that can be a path is walked. -/
theorem locate_eq_walk (hnul : '\x00' ∉ p.text.toList) (hp : p.text ≠ "")
    (hroom : byteLength p.text.toList ≤ pathLimit) : t.locate p = t.walk p p.steps := by
  have hcheck : checkText p = .ok () := by
    rw [checkText, if_neg hnul, if_neg hp, if_neg (Nat.not_lt.2 hroom)]
    rfl
  rw [locate, hcheck]
  rfl

/-- A directory that can be asked for is reached, if there is room. -/
theorem reaches_of_node {entries : List (String × Node)} (ha : p.isAbsolute = true)
    (h : t.node p = .ok (.directory entries))
    (hroom : byteLength p.text.toList + byteLength "/package.json".toList ≤ pathLimit) :
    t.Reaches p := by
  rcases hl : t.locate p with fault | way
  · rw [node, hl] at h
    cases h
  · rw [node, hl] at h
    refine ⟨ha, fun hnul => ?_, hroom, way, entries, walk_of_locate hl, Except.ok.inj h⟩
    rw [locate, checkText, if_pos hnul] at hl
    cases hl

theorem walk_of_isAbsolute (h : p.isAbsolute = true) (steps : List Component) :
    t.walk p steps = steps.foldlM t.stepFrom [] := by
  rw [walk, if_pos h, List.nil_append]

/-- A walk leads through its parts, one after the other. -/
theorem foldlM_append_eq_ok {front back : List Component} {way last : Way}
    (h : (front ++ back).foldlM t.stepFrom way = .ok last) :
    ∃ between, front.foldlM t.stepFrom way = .ok between ∧
      back.foldlM t.stepFrom between = .ok last := by
  rw [List.foldlM_append] at h
  rcases hb : front.foldlM t.stepFrom way with fault | between
  · rw [hb] at h
    cases h
  · rw [hb] at h
    exact ⟨between, rfl, h⟩

theorem foldlM_singleton (way : Way) (c : Component) :
    [c].foldlM t.stepFrom way = t.stepFrom way c :=
  bind_pure _

theorem stepFrom_current {way : Way} {entries : List (String × Node)}
    (h : t.endOf way = .directory entries) : t.stepFrom way .current = .ok way := by
  rw [stepFrom, h]

/-- A step on the spot at the end of a walk does not matter in a directory. -/
theorem foldlM_concat_current {front : List Component} {way between : Way}
    {entries : List (String × Node)} (h : front.foldlM t.stepFrom way = .ok between)
    (hd : t.endOf between = .directory entries) :
    (front ++ [Component.current]).foldlM t.stepFrom way = .ok between := by
  rw [List.foldlM_append, h]
  exact (foldlM_singleton _ _).trans (stepFrom_current hd)

theorem of_foldlM_concat_current {front : List Component} {way last : Way}
    (h : (front ++ [Component.current]).foldlM t.stepFrom way = .ok last) :
    front.foldlM t.stepFrom way = .ok last := by
  obtain ⟨between, hfront, hlast⟩ := foldlM_append_eq_ok h
  rw [foldlM_singleton] at hlast
  obtain ⟨entries, hd⟩ := exists_directory_of_stepFrom hlast
  rw [stepFrom_current hd] at hlast
  rw [hfront, hlast]

theorem stepFrom_name {way : Way} {entries : List (String × Node)} {m : String}
    (h : t.endOf way = .directory entries) (hm : byteLength m.toList ≤ nameLimit) :
    (t.stepFrom way (.name m)).toOption.map t.endOf = entries.lookup m := by
  rw [stepFrom, h]
  dsimp only
  rw [if_neg (Nat.not_lt.2 hm)]
  cases entries.lookup m <;> rfl

namespace Reaches

/-- **Going outwards along a text** leads from a directory to a directory. -/
theorem parent? (h : t.Reaches p) (hq : p.parent? = some q) : t.Reaches q := by
  have ha := Path.isAbsolute_of_isAbsolute_parent? h.isAbsolute hq
  obtain ⟨rest, hrest⟩ := Path.exists_text_eq_append h.isAbsolute hq
  obtain ⟨way, entries, hway, -⟩ := h.directory
  obtain ⟨front, back, hsteps, hback, hqsteps⟩ := Path.exists_steps_of_parent? h.isAbsolute hq
  rw [walk_of_isAbsolute h.isAbsolute, hsteps] at hway
  obtain ⟨between, hfront, hnext⟩ := foldlM_append_eq_ok hway
  -- there is a step from here, so here is a directory
  obtain ⟨c, cs, rfl⟩ := List.exists_cons_of_ne_nil hback
  obtain ⟨es, hes⟩ : ∃ es, t.endOf between = .directory es := by
    obtain ⟨after, hafter, -⟩ :=
      foldlM_append_eq_ok (show ([c] ++ cs).foldlM t.stepFrom between = .ok way from hnext)
    exact exists_directory_of_stepFrom ((foldlM_singleton _ _).symm.trans hafter)
  refine ⟨ha, fun hnul => h.nul ?_, ?_, between, es, ?_, hes⟩
  · rw [hrest]
    exact List.mem_append_left rest hnul
  · have hroom := h.room
    rw [hrest, byteLength_append] at hroom
    omega
  · rw [walk_of_isAbsolute ha]
    rcases hqsteps with hqsteps | hqsteps
    · rw [hqsteps, hfront]
    · rw [hqsteps, foldlM_concat_current hfront hes]

/-- So do all the texts on the way out. -/
theorem of_mem_ancestors (h : t.Reaches p) (hq : q ∈ p.ancestors) : t.Reaches q := by
  induction p using Path.ancestors.induct with
  | case1 p hp =>
    rw [Path.ancestors_of_parent?_eq_none hp] at hq
    rwa [List.mem_singleton.1 hq]
  | case2 p r hr ih =>
    rw [Path.ancestors_of_parent? hr] at hq
    rcases List.mem_cons.1 hq with rfl | hq
    · exact h
    · exact ih (h.parent? hr) hq

end Reaches

/-! ## Markers -/

/-- Whether there is a manifest or a repository in the directory at a place, which is given by the
names on the way to it, innermost first. -/
def holdsProject (t : Tree) (place : List String) : Bool :=
  (t.root.at? (place.reverse ++ ["package.json"])).isSome ||
    (t.root.at? (place.reverse ++ [".git"])).isSome

/-- What is behind the text of a directory stands in the directory. -/
theorem Reaches.present_join (h : t.Reaches p) {m : String} (hm : ProperName m)
    (hnul : '\x00' ∉ m.toList)
    (hlength : byteLength ('/' :: m.toList) ≤ byteLength "/package.json".toList) :
    t.disk (.present (p.join ⟨m⟩)) = (t.root.at? ((p.lead []).reverse ++ [m])).isSome := by
  obtain ⟨way, entries, hway, hd⟩ := h.directory
  have hp := text_ne_empty h.isAbsolute
  have hwalked : p.steps.foldlM t.stepFrom [] = .ok way :=
    (walk_of_isAbsolute h.isAbsolute p.steps).symm.trans hway
  have hnames : way.names = (p.lead []).reverse := by
    rw [Way.names, map_fst_foldlM hwalked, Path.foldl_placeAfter_steps, Path.lead,
      Path.components_of_isAbsolute h.isAbsolute]
    rfl
  have hplace : t.root.at? ((p.lead []).reverse ++ [m]) = entries.lookup m := by
    rw [← hnames, Node.at?_concat, at?_names (leads_foldlM (show t.Leads [] from trivial) hwalked),
      Option.bind_some, hd, Node.child?]
  have ha : (p.join ⟨m⟩).isAbsolute = true := by
    rw [Path.isAbsolute_join, h.isAbsolute, Bool.or_true]
  have hwalk : t.walk (p.join ⟨m⟩) (p.join ⟨m⟩).steps = t.stepFrom way (.name m) := by
    obtain ⟨front, hfront, hsteps⟩ := Path.exists_steps_join hm hp
    rw [walk_of_isAbsolute ha, hsteps, List.foldlM_append]
    rcases hfront with hfront | hfront
    · rw [hfront] at hwalked
      rw [hwalked]
      exact foldlM_singleton _ _
    · rw [hfront] at hwalked
      rw [of_foldlM_concat_current hwalked]
      exact foldlM_singleton _ _
  have hlocate : t.locate (p.join ⟨m⟩) = t.stepFrom way (.name m) := by
    obtain ⟨cs, hcs, hjoin⟩ := Path.exists_toList_join hm hp
    have hfront : ∃ rest, p.text.toList = cs ++ rest :=
      hcs.elim (fun h => ⟨[], by rw [h, List.append_nil]⟩) fun h => ⟨['/'], h⟩
    obtain ⟨rest, hrest⟩ := hfront
    have hroom := h.room
    rw [hrest, byteLength_append] at hroom
    rw [locate_eq_walk _ (text_ne_empty ha), hwalk]
    · rw [hjoin, byteLength_append]
      omega
    · rw [hjoin, List.mem_append, List.mem_cons]
      rintro (hcs | hslash | hname)
      · exact h.nul (hrest ▸ List.mem_append_left rest hcs)
      · cases hslash
      · exact hnul hname
  have hshort : byteLength m.toList ≤ nameLimit :=
    Nat.le_trans (Nat.le_trans (Nat.le_add_left _ _) hlength) (by decide)
  rw [hplace, ← stepFrom_name hd hshort, ← hlocate]
  change ((do return t.endOf (← t.locate (p.join ⟨m⟩))).toOption).isSome = _
  cases t.locate (p.join ⟨m⟩) <;> rfl

end Tree

theorem run_isProjectRoot (d : Disk) (dir : Path) :
    (isProjectRoot dir).run d
      = (d (.present (Manifest.ofDirectory dir)) ||
          d (.present (dir.join ⟨repositoryDirectory⟩))) := by
  rw [isProjectRoot, Program.run_bind]
  change (if d (.present (Manifest.ofDirectory dir)) = true then _ else _ : Program Bool).run d = _
  cases d (.present (Manifest.ofDirectory dir)) <;> rfl

theorem run_firstProjectRoot? (d : Disk) (dirs : List Path) :
    (firstProjectRoot? dirs).run d = dirs.find? fun dir => (isProjectRoot dir).run d := by
  induction dirs with
  | nil => rfl
  | cons dir outer ih =>
    rw [firstProjectRoot?, Program.run_bind, List.find?_cons]
    cases (isProjectRoot dir).run d with
    | true => rfl
    | false => exact ih

namespace Tree.Reaches

variable {t : Tree} {p : Path}

/-- A marker is found where it stands. -/
theorem run_isProjectRoot (h : t.Reaches p) :
    (isProjectRoot p).run t.disk = t.holdsProject (p.lead []) := by
  have hmanifest := h.present_join (m := "package.json") (by decide) (by decide) (by decide)
  have hrepository := h.present_join (m := ".git") (by decide) (by decide) (by decide)
  rw [ModuleLookup.run_isProjectRoot, holdsProject, ← hmanifest, ← hrepository]
  rfl

/-- **The root that is found** is the first directory along the text with a marker. -/
theorem run_projectRoot? (h : t.Reaches p) :
    (projectRoot? p).run t.disk = p.ancestors.find? fun dir => t.holdsProject (dir.lead []) := by
  rw [projectRoot?, run_firstProjectRoot?]
  exact List.find?_congr fun dir hdir => (h.of_mem_ancestors hdir).run_isProjectRoot

/-- What is found is one of these directories, and it has a marker. -/
theorem run_projectRoot?_eq_some (h : t.Reaches p) {root : Path}
    (hroot : (projectRoot? p).run t.disk = some root) :
    root ∈ p.ancestors ∧ t.holdsProject (root.lead []) = true := by
  have hfound := h.run_projectRoot?.symm.trans hroot
  refine ⟨List.mem_of_find?_eq_some hfound, ?_⟩
  exact List.find?_some (p := fun dir : Path => t.holdsProject (dir.lead [])) hfound

end Tree.Reaches

/-! ## Directories around -/

namespace Path

variable {p q : Path} {holds : List String → Bool} {place : List String}

/-- **No place around is left out**: before going on past it, it is looked at. -/
theorem exists_find?_ancestors (hplace : place <:+ p.lead []) (hholds : holds place = true) :
    ∃ root, (p.ancestors.find? fun dir => holds (dir.lead [])) = some root ∧
      place <:+ root.lead [] := by
  induction p using ancestors.induct with
  | case1 p hp =>
    have hlead : p.lead [] = [] := by
      rw [lead]
      rcases components_of_parent?_eq_none hp with hc | hc <;> rw [hc] <;> rfl
    rw [hlead, List.suffix_nil] at hplace
    subst hplace
    rw [ancestors_of_parent?_eq_none hp]
    exact ⟨p, List.find?_cons_of_pos (by rwa [hlead]), List.nil_suffix⟩
  | case2 p q hq ih =>
    rw [ancestors_of_parent? hq]
    by_cases hp : holds (p.lead []) = true
    · exact ⟨p, List.find?_cons_of_pos hp, hplace⟩
    · have hrest := List.find?_cons_of_neg (p := fun dir : Path => holds (dir.lead []))
        (l := q.ancestors) hp
      rw [hrest]
      have hne : place ≠ p.lead [] := fun heq => hp (heq ▸ hholds)
      obtain ⟨c, hc⟩ := components_eq_append_of_parent? hq
      have hlead : p.lead [] = placeAfter (q.lead []) c := by
        rw [lead, hc, List.foldl_append]
        rfl
      rw [hlead] at hplace hne
      refine ih ?_
      cases c with
      | root => exact absurd (List.suffix_nil.1 hplace) hne
      | current => exact hplace
      | parent => exact hplace.trans (List.tail_suffix _)
      | name s => exact (List.suffix_cons_iff.1 hplace).resolve_left hne

/-- The first place around comes before all others. -/
theorem suffix_of_find?_tails {names first : List String}
    (hfirst : names.tails.find? holds = some first) (hplace : place <:+ names)
    (hholds : holds place = true) : place <:+ first := by
  induction names with
  | nil =>
    rw [List.suffix_nil.1 hplace]
    exact List.nil_suffix
  | cons s names ih =>
    rw [List.tails_cons] at hfirst
    by_cases hs : holds (s :: names) = true
    · rw [List.find?_cons_of_pos hs] at hfirst
      rwa [← Option.some.inj hfirst]
    · rw [List.find?_cons_of_neg hs] at hfirst
      have hne : place ≠ s :: names := fun heq => hs (heq ▸ hholds)
      exact ih hfirst ((List.suffix_cons_iff.1 hplace).resolve_left hne)

/-- The places around a normal form are those around its path. -/
theorem mem_ancestors_normalize_iff (h : p.isAbsolute = true) :
    q ∈ p.normalize.ancestors ↔ ∃ names, names <:+ p.lead [] ∧ q = atPlace names := by
  obtain ⟨hproper, hnormal⟩ := normalize_of_isAbsolute h
  rw [hnormal, ancestors_atPlace hproper, List.mem_map]
  exact exists_congr fun names => and_congr (List.mem_tails _ _) eq_comm

theorem lead_atPlace {names : List String} (h : ∀ s ∈ names, ProperName s) :
    (atPlace names).lead [] = names := by
  rw [lead, components_atPlace h, List.foldl_cons, ← List.map_reverse, foldl_placeAfter_names,
    List.reverse_reverse]
  exact List.append_nil names

theorem find?_ancestors_normalize (h : p.isAbsolute = true) :
    (p.normalize.ancestors.find? fun dir => holds (dir.lead []))
      = ((p.lead []).tails.find? holds).map atPlace := by
  obtain ⟨hproper, hnormal⟩ := normalize_of_isAbsolute h
  rw [hnormal, ancestors_atPlace hproper, List.find?_map]
  refine congrArg (Option.map atPlace) (List.find?_congr fun names hnames => ?_)
  have hsuffix := (List.mem_tails _ _).1 hnames
  exact congrArg holds (lead_atPlace fun s hs => hproper s (hsuffix.subset hs))

/-- Along a text go fewer and fewer of its components. -/
theorem components_of_mem_ancestors (hq : q ∈ p.ancestors) :
    ∃ rest, p.components = q.components ++ rest := by
  induction p using ancestors.induct with
  | case1 p hp =>
    rw [ancestors_of_parent?_eq_none hp] at hq
    exact ⟨[], by rw [List.mem_singleton.1 hq, List.append_nil]⟩
  | case2 p r hr ih =>
    rw [ancestors_of_parent? hr] at hq
    rcases List.mem_cons.1 hq with rfl | hq
    · exact ⟨[], (List.append_nil _).symm⟩
    · obtain ⟨rest, hrest⟩ := ih hq
      obtain ⟨c, hc⟩ := components_eq_append_of_parent? hr
      exact ⟨rest ++ [c], by rw [hc, hrest, List.append_assoc]⟩

/-- Without `..` nothing but names follows, and they go inwards. -/
theorem suffix_foldl_placeAfter {cs : List Component} (hinner : ∀ c ∈ cs, c.Inner)
    (hcs : .parent ∉ cs) (names : List String) : names <:+ cs.foldl placeAfter names := by
  induction cs generalizing names with
  | nil => exact List.suffix_rfl
  | cons c cs ih =>
    have hrest := ih (fun d hd => hinner d (List.mem_cons_of_mem c hd))
      (fun hd => hcs (List.mem_cons_of_mem c hd)) (placeAfter names c)
    cases c with
    | root => exact (hinner .root List.mem_cons_self).elim
    | current => exact (hinner .current List.mem_cons_self).elim
    | parent => exact absurd List.mem_cons_self hcs
    | name s => exact (List.suffix_cons s names).trans hrest

/-- Along a text without `..` every directory lies around. -/
theorem lead_suffix_of_mem_ancestors (hp : p.isAbsolute = true) (hq : q.isAbsolute = true)
    (hparent : .parent ∉ p.components) (h : q ∈ p.ancestors) : q.lead [] <:+ p.lead [] := by
  obtain ⟨rest, hrest⟩ := components_of_mem_ancestors h
  have hadded : p.added = q.added ++ rest := by
    rw [components_of_isAbsolute hp, components_of_isAbsolute hq] at hrest
    exact (List.cons.inj hrest).2
  rw [lead, lead, hrest, List.foldl_append]
  refine suffix_foldl_placeAfter (fun c hc => ?_) (fun hc => ?_) _
  · exact inner_of_mem_added (hadded ▸ List.mem_append_right _ hc)
  · exact hparent (hrest ▸ List.mem_append_right _ hc)

end Path

/-- The nearest root is found: the normal form of what is found is the nearest directory around
with a marker, and where there is none, the directory itself has to do. -/
def Tree.NearestRoot (t : Tree) (cwd : Path) : Prop :=
  ((projectRoot? cwd).run t.disk).map Path.normalize
      = cwd.normalize.ancestors.find? (fun dir => t.holdsProject (dir.lead [])) ∧
    (projectRoot cwd).run t.disk = ((projectRoot? cwd).run t.disk).getD cwd

namespace Tree.Reaches

variable {t : Tree} {cwd : Path}

/-- A directory around with a marker lies around what is found as well. -/
theorem exists_run_projectRoot? (h : t.Reaches cwd) {dir : Path}
    (hdir : dir ∈ cwd.normalize.ancestors) (hholds : t.holdsProject (dir.lead []) = true) :
    ∃ root, (projectRoot? cwd).run t.disk = some root ∧ dir ∈ root.normalize.ancestors := by
  obtain ⟨names, hnames, rfl⟩ := (Path.mem_ancestors_normalize_iff h.isAbsolute).1 hdir
  have hproper := (Path.normalize_of_isAbsolute h.isAbsolute).1
  rw [Path.lead_atPlace fun s hs => hproper s (hnames.subset hs)] at hholds
  obtain ⟨root, hroot, hsuffix⟩ := Path.exists_find?_ancestors hnames hholds
  have ha := (h.of_mem_ancestors (List.mem_of_find?_eq_some hroot)).isAbsolute
  exact ⟨root, h.run_projectRoot?.trans hroot,
    (Path.mem_ancestors_normalize_iff ha).2 ⟨names, hsuffix, rfl⟩⟩

/-- What is found is the nearest root if it lies around at all. -/
theorem nearestRoot_of_forall (h : t.Reaches cwd)
    (hroot : ∀ root, (projectRoot? cwd).run t.disk = some root →
      root.normalize ∈ cwd.normalize.ancestors) : t.NearestRoot cwd := by
  refine ⟨?_, Program.run_bind ..⟩
  rcases hrun : (projectRoot? cwd).run t.disk with _ | root
  · refine (List.find?_eq_none.2 fun dir hdir hholds => ?_).symm
    obtain ⟨root, hsome, -⟩ := h.exists_run_projectRoot? hdir hholds
    rw [hrun] at hsome
    cases hsome
  · have hfound := h.run_projectRoot?.symm.trans hrun
    obtain ⟨hmem, hholds⟩ := h.run_projectRoot?_eq_some hrun
    have ha := (h.of_mem_ancestors hmem).isAbsolute
    obtain ⟨names, hnames, hnormal⟩ :=
      (Path.mem_ancestors_normalize_iff h.isAbsolute).1 (hroot root hrun)
    have hproper := (Path.normalize_of_isAbsolute h.isAbsolute).1
    obtain rfl : root.lead [] = names := by
      rw [← Path.lead_normalize, hnormal,
        Path.lead_atPlace fun s hs => hproper s (hnames.subset hs)]
    -- the nearest place is not further in, and what is found is not further in than the nearest
    obtain ⟨first, hfirst⟩ := Option.isSome_iff_exists.1
      (List.find?_isSome.2 ⟨root.lead [], (List.mem_tails _ _).2 hnames, hholds⟩)
    have hinwards := Path.suffix_of_find?_tails hfirst hnames hholds
    obtain ⟨other, hother, houtwards⟩ := Path.exists_find?_ancestors
      ((List.mem_tails _ _).1 (List.mem_of_find?_eq_some hfirst)) (List.find?_some hfirst)
    obtain rfl : root = other := Option.some.inj (hfound.symm.trans hother)
    rw [Path.find?_ancestors_normalize h.isAbsolute, hfirst, Option.map_some, Option.map_some,
      (Path.normalize_of_isAbsolute ha).2, houtwards.eq_of_length_le hinwards.length_le]

end Tree.Reaches

/-- **The nearest root is found** from a directory, given by an absolute path with room for the name
of a manifest behind it, just when what is found lies around the directory. It is never further out
than the nearest root. So it is the nearest one where every directory along the text that has a
marker lies around, and wherever there is no `..` in the path. -/
theorem nearestRoot_iff (t : Tree) (cwd : Path) (entries : List (String × Node))
    (habsolute : cwd.isAbsolute = true) (hdirectory : t.node cwd = .ok (.directory entries))
    (hroom : byteLength cwd.text.toList + byteLength "/package.json".toList ≤ pathLimit) :
    (t.NearestRoot cwd ↔ ∀ root, (projectRoot? cwd).run t.disk = some root →
      root.normalize ∈ cwd.normalize.ancestors) ∧
    (∀ dir ∈ cwd.normalize.ancestors, t.holdsProject (dir.lead []) = true →
      ∃ root, (projectRoot? cwd).run t.disk = some root ∧ dir ∈ root.normalize.ancestors) ∧
    ((∀ dir ∈ cwd.ancestors, t.holdsProject (dir.lead []) = true →
      dir.normalize ∈ cwd.normalize.ancestors) → t.NearestRoot cwd) ∧
    (.parent ∉ cwd.components → t.NearestRoot cwd) := by
  have h := t.reaches_of_node habsolute hdirectory hroom
  have hmarked (hall : ∀ dir ∈ cwd.ancestors, t.holdsProject (dir.lead []) = true →
      dir.normalize ∈ cwd.normalize.ancestors) : t.NearestRoot cwd :=
    h.nearestRoot_of_forall fun root hroot =>
      hall root (h.run_projectRoot?_eq_some hroot).1 (h.run_projectRoot?_eq_some hroot).2
  refine ⟨⟨fun hnearest root hroot => ?_, h.nearestRoot_of_forall⟩,
    fun dir hdir hholds => h.exists_run_projectRoot? hdir hholds, hmarked,
    fun hparent => hmarked fun dir hdir _ => ?_⟩
  · have hfirst := hnearest.1
    rw [hroot] at hfirst
    exact List.mem_of_find?_eq_some hfirst.symm
  · have ha := (h.of_mem_ancestors hdir).isAbsolute
    exact (Path.mem_ancestors_normalize_iff habsolute).2 ⟨dir.lead [],
      Path.lead_suffix_of_mem_ancestors habsolute ha hparent hdir,
      (Path.normalize_of_isAbsolute ha).2⟩

/-- A directory with a project in it, around which there is none. -/
def besideProject : Tree :=
  ⟨.directory [("w", .directory [("a", .directory [("package.json", .file [] 0)])])], ["w"], 0⟩

/-- In the project itself, the project is found. -/
theorem nearestRoot_iff_inProject :
    besideProject.NearestRoot ⟨"/w/./a"⟩ ∧
      (projectRoot? ⟨"/w/./a"⟩).run besideProject.disk = some ⟨"/w/./a"⟩ :=
  ⟨(nearestRoot_iff besideProject ⟨"/w/./a"⟩ [("package.json", .file [] 0)] (by decide) rfl
    (by decide)).2.2.2 (by decide), by decide +kernel⟩

/-- A `..` that leaves the project goes back into it: from the directory around, in which there is
no marker, nor further out, the project beside it is found. -/
theorem not_nearestRoot_besideProject :
    besideProject.node ⟨"/w/a/.."⟩ = besideProject.node ⟨"/w"⟩ ∧
      (∀ dir ∈ (Path.mk "/w/a/..").normalize.ancestors,
        besideProject.holdsProject (dir.lead []) = false) ∧
      (projectRoot? ⟨"/w/a/.."⟩).run besideProject.disk = some ⟨"/w/a"⟩ ∧
      (projectRoot ⟨"a/.."⟩).run besideProject.disk = ⟨"a"⟩ ∧
      ¬besideProject.NearestRoot ⟨"/w/a/.."⟩ :=
  ⟨rfl, by decide +kernel, by decide +kernel, by decide +kernel,
    fun h => absurd h.1 (by decide +kernel)⟩

end ModuleLookup
