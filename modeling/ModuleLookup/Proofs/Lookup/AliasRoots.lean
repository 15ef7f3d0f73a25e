import ModuleLookup.Proofs.Lookup.OneFile

/-!
# Files in the project's own directories

A specifier is written behind each of the project's own directories, and the directories are
checked to lie below the project. The specifier is not checked: one that climbs, or is absolute,
or leads nowhere, is still written there, and a file that it then means need not be in any of
the directories.

* `Path.LiesIn` — a path has the components of a directory in front.
* `Descends` — a specifier leads down from wherever it starts.
* `Context.RootsNamed` — no directory has the normal form `.`, which stands in front of nothing.
* `liesIn_of_mem_rootNames` — what is tried for a specifier that descends stays in the
  directory.
* `exists_aliased_outside` — any other specifier leads out of some directory: when it climbs the
  directory's name is taken away, and when nothing is left of it an ending makes another name
  of the directory itself.
* `aliased_liesIn_iff` — so exactly the files for specifiers that descend are always where they
  are said to be; `find_climbing_eq_aliased` is a file that is not.
-/

namespace ModuleLookup

/-! ## Directories and specifiers -/

/-- A path has the components of a directory's normal form in front. -/
def Path.LiesIn (p dir : Path) : Prop :=
  dir.normalize.components <+: p.components

instance (p dir : Path) : Decidable (p.LiesIn dir) :=
  inferInstanceAs (Decidable (_ <+: _))

/-- A specifier leads to a place below the one where it starts: names are left of it, and
nothing else. -/
def Descends (spec : String) : Prop :=
  (Path.mk spec).normalComponents ≠ [] ∧
    ∀ c ∈ (Path.mk spec).normalComponents, c.isName = true

instance (spec : String) : Decidable (Descends spec) :=
  inferInstanceAs (Decidable (_ ∧ _))

/-- No directory for bare specifiers is the place where relative paths start. -/
def Context.RootsNamed (ctx : Context) : Prop :=
  ∀ root ∈ ctx.aliasRoots, (ctx.projectRoot.join ⟨root⟩).normalize ≠ ⟨"."⟩

theorem Path.LiesIn.of_same {p q dir : Path} (h : p.LiesIn dir) (hpq : p.Same q) :
    q.LiesIn dir := by
  rw [LiesIn, ← show p.components = q.components from hpq]
  exact h

/-! ## Specifiers that descend -/

/-- What is left of a specifier that descends ends in a name. -/
theorem exists_normalComponents_eq_append {spec : String} (h : Descends spec) :
    ∃ init s, (Path.mk spec).normalComponents = init ++ [.name s] ∧ ProperName s := by
  obtain ⟨hne, hnames⟩ := h
  have hsplit := (List.dropLast_concat_getLast hne).symm
  have hname := hnames _ (List.getLast_mem hne)
  cases hlast : (Path.mk spec).normalComponents.getLast hne with
  | name s =>
    rw [hlast] at hsplit
    have hmem : .name s ∈ (Path.mk spec).normalComponents := hlast ▸ List.getLast_mem hne
    exact ⟨_, s, hsplit,
      (Path.settled_normalComponents ⟨spec⟩).properName (List.mem_reverse.2 hmem)⟩
  | _ =>
    rw [hlast] at hname
    cases hname

/-- Everything that is tried for a specifier that descends lies in the directory. -/
theorem liesIn_of_mem_rootNames {dir p : Path} {spec : String} {exts : List String}
    (hnamed : dir.normalize ≠ ⟨"."⟩) (h : Descends spec)
    (hexts : ∀ e ∈ exts, ValidExtension e)
    (hp : p ∈ rootNames (dir.join ⟨spec⟩).normalize exts) : p.LiesIn dir := by
  have hne : dir.normalComponents ≠ [] := fun hn => hnamed (Path.normalize_eq_dot_iff.2 hn)
  have hjoin := Path.normalComponents_join_of_names dir h.2
  have hbase : (dir.join ⟨spec⟩).normalize.components
      = dir.normalComponents ++ (Path.mk spec).normalComponents := by
    rw [Path.components_normalize (by rw [hjoin]; simp [hne]), hjoin]
  rw [Path.LiesIn, Path.components_normalize hne]
  rcases List.mem_cons.1 hp with rfl | hp
  · rw [hbase]
    exact List.prefix_append _ _
  · obtain ⟨e, he, hp⟩ := List.mem_flatMap.1 hp
    rcases List.mem_cons.1 hp with rfl | hp
    · -- the ending goes to the last name of the specifier, not to the directory
      obtain ⟨init, s, hspec, hs⟩ := exists_normalComponents_eq_append h
      rw [hspec, ← List.append_assoc] at hjoin
      rw [Path.components_withSuffix_normalize hjoin (hs.append_extension (hexts e he)),
        List.append_assoc]
      exact List.prefix_append _ _
    · obtain rfl := List.mem_singleton.1 hp
      rw [Path.components_join_name (properName_index (hexts e he)), hbase, List.append_assoc]
      exact List.prefix_append _ _

/-! ## Results of lookups -/

section Results

variable {d : Disk} {ctx : Context} {spec : String} {start p : Path}

/-- The search from the requesting directory outwards tries nothing in the project's own
directories. -/
theorem aliasRoots_not_mem_outwardCandidates :
    Candidate.path .aliasRoots p ∉ outwardCandidates d ctx spec start := by
  have hblock : ∀ exts q, Candidate.path .aliasRoots p ∉ block d exts q :=
    fun exts q h => Strategy.noConfusion (exists_base_of_mem_block h).1
  unfold outwardCandidates
  split
  · exact List.not_mem_nil
  · split
    · exact List.not_mem_nil
    · exact hblock _ _
    · intro h
      obtain ⟨dir, -, h⟩ := List.mem_flatMap.1 h
      exact hblock _ _ h

theorem mem_aliasCandidates_iff {c : Candidate} :
    c ∈ aliasCandidates ctx spec ↔ ∃ root ∈ ctx.aliasRoots,
      ∃ q ∈ rootNames ((ctx.projectRoot.join ⟨root⟩).join ⟨spec⟩).normalize ctx.aliasExtensions,
        .path .aliasRoots q = c := by
  rw [aliasCandidates, List.mem_flatMap]
  exact exists_congr fun root => and_congr_right fun _ => List.mem_map

/-- A file of the project's own directories was tried in one of them, and is there. -/
theorem exists_root_of_find_eq_aliased (h : (find ctx spec start).run d = .ok (.aliased p)) :
    isCore spec = false ∧ d (.isFile p) = true ∧ ∃ root ∈ ctx.aliasRoots,
      p ∈ rootNames ((ctx.projectRoot.join ⟨root⟩).join ⟨spec⟩).normalize
        ctx.aliasExtensions := by
  obtain ⟨hcore, s, hs, hfile, hr⟩ := exists_candidate_of_find h rfl
  refine ⟨hcore, hfile, ?_⟩
  cases s with
  | outward => cases hr
  | aliasRoots =>
    rcases List.mem_append.1 hs with hs | hs
    · exact absurd hs aliasRoots_not_mem_outwardCandidates
    · obtain ⟨root, hroot, q, hq, heq⟩ := mem_aliasCandidates_iff.1 hs
      cases heq
      exact ⟨root, hroot, hq⟩

/-- When nothing is found outwards and something is tried in the project's own directories,
that is the result. -/
theorem exists_find_eq_aliased (hcore : isCore spec = false)
    (hout : (outwardCandidates d ctx spec start).findSome? (Candidate.verdict? d) = none)
    {root : String} (hroot : root ∈ ctx.aliasRoots)
    (hp : p ∈ rootNames ((ctx.projectRoot.join ⟨root⟩).join ⟨spec⟩).normalize
      ctx.aliasExtensions) (hfile : d (.isFile p) = true) :
    ∃ q, (find ctx spec start).run d = .ok (.aliased q) ∧ d (.isFile q) = true := by
  rw [run_find_of_not_isCore ctx start hcore, candidates, firstHit_append_of_none _ hout,
    firstHit]
  rcases hv : (aliasCandidates ctx spec).findSome? (Candidate.verdict? d) with _ | v
  · have hmiss := List.findSome?_eq_none_iff.1 hv _
      (mem_aliasCandidates_iff.2 ⟨root, hroot, p, hp, rfl⟩)
    rw [verdict?_eq_ok_iff.2 ⟨.aliasRoots, p, rfl, hfile, rfl⟩] at hmiss
    cases hmiss
  · obtain ⟨c, hc, hverdict⟩ := List.exists_of_findSome?_eq_some hv
    obtain ⟨_, _, q, _, rfl⟩ := mem_aliasCandidates_iff.1 hc
    rw [Candidate.verdict?] at hverdict
    split at hverdict
    · next hq =>
      cases hverdict
      exact ⟨q, rfl, hq⟩
    · cases hverdict

/-- A file for a specifier that descends lies in one of the directories. -/
theorem exists_liesIn_of_descends (hctx : ctx.RootsNamed) (hspec : Descends spec)
    (h : (find ctx spec start).run d = .ok (.aliased p)) :
    ∃ root ∈ ctx.aliasRoots, p.LiesIn (ctx.projectRoot.join ⟨root⟩) := by
  obtain ⟨-, -, root, hroot, hp⟩ := exists_root_of_find_eq_aliased h
  exact ⟨root, hroot, liesIn_of_mem_rootNames (hctx root hroot) hspec
    ctx.validExtensions_aliasExtensions.2 hp⟩

end Results

/-! ## New names -/

/-- The length of the longest of some texts. -/
def longest : List String → Nat
  | [] => 0
  | s :: texts => max s.toList.length (longest texts)

/-- A name that is longer than any of some texts, and so is in none of them. -/
def newName (texts : List String) : String :=
  String.ofList (List.replicate (longest texts + 1) 'r')

section NewName

variable {texts : List String}

theorem length_le_longest {s : String} (h : s ∈ texts) : s.toList.length ≤ longest texts := by
  induction texts with
  | nil => exact absurd h List.not_mem_nil
  | cons t texts ih =>
    rcases List.mem_cons.1 h with rfl | h
    · exact Nat.le_max_left _ _
    · exact Nat.le_trans (ih h) (Nat.le_max_right _ _)

theorem toList_newName : (newName texts).toList = 'r' :: List.replicate (longest texts) 'r' :=
  String.toList_ofList

theorem eq_of_mem_newName {c : Char} (h : c ∈ (newName texts).toList) : c = 'r' := by
  rw [toList_newName, ← List.replicate_succ] at h
  exact List.eq_of_mem_replicate h

theorem ne_newName {s : String} {c : Char} (hc : c ∈ s.toList) (hr : c ≠ 'r') :
    s ≠ newName texts := by
  rintro rfl
  exact hr (eq_of_mem_newName hc)

theorem properName_newName : ProperName (newName texts) := by
  rw [ProperName, toList_newName]
  refine ⟨⟨List.cons_ne_nil _ _, ?_, ?_⟩, fun h => ?_⟩
  · exact fun h => absurd (List.cons.inj h).1 (by decide)
  · exact fun h => absurd (List.cons.inj h).1 (by decide)
  · rw [← toList_newName] at h
    exact absurd (eq_of_mem_newName h) (by decide)

theorem validRoot_newName : ValidRoot (newName texts) := by
  refine ⟨?_, Path.isAbsolute_of_properName properName_newName⟩
  rw [isBlankText, toList_newName, List.all_cons]
  rfl

theorem isCore_newName : isCore (newName texts) = false := by
  have hcore : (coreModules.all fun s => s.toList.any (· != 'r')) = true := by decide +kernel
  rw [isCore, Bool.eq_false_iff]
  intro h
  obtain ⟨c, hc, hr⟩ :=
    List.any_eq_true.1 (List.all_eq_true.1 hcore _ (List.contains_iff_mem.1 h))
  exact bne_iff_ne.1 hr (eq_of_mem_newName hc)

theorem newName_not_mem_added {p : Path} (h : p.text ∈ texts) :
    .name (newName texts) ∉ p.added := by
  intro hmem
  obtain ⟨s, hs, hname⟩ := List.mem_filterMap.1 hmem
  have hlength := Nat.le_trans (length_le_of_mem_segments hs) (length_le_longest h)
  rw [← Component.toList_of_ofSegment? hname, toList_newName, List.length_cons,
    List.length_replicate] at hlength
  exact absurd hlength (Nat.not_succ_le_self _)

theorem newName_not_mem_normalComponents {p : Path} (h : p.text ∈ texts) :
    .name (newName texts) ∉ p.normalComponents :=
  fun hmem => newName_not_mem_added h (Path.name_mem_added_of_mem_normalComponents hmem)

end NewName

/-! ## Specifiers that do not descend

For any of them there is a project in which it leads out: the directory has a new name, and the
one file stands where the specifier leads. -/

section Escape

variable {spec : String}

theorem validRoot_of_mem_newName : ∀ root ∈ [newName [spec]], ValidRoot root := by
  intro root hroot
  exact List.mem_singleton.1 hroot ▸ validRoot_newName

theorem validExtensions_of_mem_x : ∀ exts ∈ some [".x"], ValidExtensions exts := by
  rintro exts ⟨⟩
  decide

/-- A project at the root with one directory for bare specifiers, which has a name that is not
in a specifier. -/
def escapeContext (spec : String) : Context where
  projectRoot := ⟨"/"⟩
  extensions := Settings.defaultResolveExtensions
  aliasRoots := [newName [spec]]
  ownAliasExtensions := some [".x"]
  extensions_valid := Context.validExtensions_default
  aliasRoots_valid := validRoot_of_mem_newName
  aliasExtensions_valid := validExtensions_of_mem_x

/-- That directory. -/
def escapeDirectory (spec : String) : Path :=
  (Path.mk "/").join ⟨newName [spec]⟩

theorem normalComponents_escapeDirectory :
    (escapeDirectory spec).normalComponents = [.root, .name (newName [spec])] := by
  rw [Path.normalComponents, escapeDirectory, Path.components_join_name properName_newName]
  rfl

theorem liesIn_escapeDirectory_iff {p : Path} :
    p.LiesIn (escapeDirectory spec) ↔ [.root, .name (newName [spec])] <+: p.components := by
  rw [Path.LiesIn, Path.components_normalize (by rw [normalComponents_escapeDirectory]; simp),
    normalComponents_escapeDirectory]

theorem rootsNamed_escapeContext : (escapeContext spec).RootsNamed := by
  intro root hroot hdot
  obtain rfl := List.mem_singleton.1 hroot
  have hnil : (escapeDirectory spec).normalComponents = [] := Path.normalize_eq_dot_iff.1 hdot
  rw [normalComponents_escapeDirectory] at hnil
  cases hnil

/-- Where a specifier leads that is written behind the directory. -/
def escapePlace (spec : String) : Path :=
  (escapeDirectory spec).join ⟨spec⟩

/-- A specifier of which more than names are left takes away the directory's name. -/
theorem normalComponents_escapePlace {b : Component}
    (hb : b ∈ (Path.mk spec).normalComponents) (hn : b.isName = false) :
    .root ∈ (escapePlace spec).normalComponents ∧
      .name (newName [spec]) ∉ (escapePlace spec).normalComponents := by
  cases ha : (Path.mk spec).isAbsolute with
  | true =>
    rw [escapePlace, Path.join_of_isAbsolute ha]
    exact ⟨Path.root_mem_normalComponents_iff.2 ha,
      newName_not_mem_normalComponents (List.mem_singleton_self _)⟩
  | false =>
    rw [Path.normalComponents, List.mem_reverse, Path.foldl_push_components ha] at hb
    obtain ⟨rest, hrest, hclimb⟩ := Path.exists_foldl_push_climb (by simp)
      (fun _ => Path.inner_of_mem_added) hb hn
    -- what comes behind the climb goes on from the root
    have hfold : (escapePlace spec).normalComponents
        = (rest.foldl Path.push [.root]).reverse := by
      rw [escapePlace, Path.normalComponents_join _ ha,
        Path.foldl_push_components ha, normalComponents_escapeDirectory,
        ← hclimb (newName [spec]) [.root]]
      rfl
    rw [hfold, List.mem_reverse, List.mem_reverse]
    refine ⟨Path.mem_foldl_push (List.mem_singleton_self _) rfl, fun h => ?_⟩
    rcases Path.mem_of_mem_foldl_push h with h | h
    · exact Component.noConfusion (List.mem_singleton.1 h)
    · exact newName_not_mem_added (List.mem_singleton_self _) (hrest.mem h)

/-- A file is found outside of the directory when it is tried there and nowhere else. -/
theorem exists_find_escapeContext {q : Path} (hcore : isCore spec = false)
    (hmiss : (outwardCandidates (Memory.oneFile q).disk (escapeContext spec) spec
      ⟨"."⟩).findSome? (Candidate.verdict? (Memory.oneFile q).disk) = none)
    (hq : q ∈ rootNames (escapePlace spec).normalize [".x"])
    (hout : ¬q.LiesIn (escapeDirectory spec)) :
    ∃ d p, (find (escapeContext spec) spec ⟨"."⟩).run d = .ok (.aliased p) ∧
      ¬p.LiesIn (escapeDirectory spec) := by
  have hroot : newName [spec] ∈ (escapeContext spec).aliasRoots := List.mem_singleton_self _
  obtain ⟨p, hfind, hp⟩ := exists_find_eq_aliased hcore hmiss hroot hq (isFile_oneFile.2 rfl)
  exact ⟨_, p, hfind, fun hin => hout (hin.of_same (isFile_oneFile.1 hp))⟩

theorem outward_misses_escape {q : Path} (hspec : (Path.mk spec).isAbsolute = false)
    (hq : q.isAbsolute = true) :
    (outwardCandidates (Memory.oneFile q).disk (escapeContext spec) spec ⟨"."⟩).findSome?
      (Candidate.verdict? (Memory.oneFile q).disk) = none := by
  refine outward_misses_of_isAbsolute_ne hspec (by decide +kernel) ?_
  rw [hq]
  decide

/-- Where a specifier leads of which more than names are left, the index is outside. -/
theorem exists_aliased_outside_of_not_isName {b : Component} (hcore : isCore spec = false)
    (hb : b ∈ (Path.mk spec).normalComponents) (hn : b.isName = false) :
    ∃ d p, (find (escapeContext spec) spec ⟨"."⟩).run d = .ok (.aliased p) ∧
      ¬p.LiesIn (escapeDirectory spec) := by
  obtain ⟨hroot, hunknown⟩ := normalComponents_escapePlace hb hn
  have hq : ((escapePlace spec).normalize.join ⟨"index.x"⟩).components
      = (escapePlace spec).normalComponents ++ [Component.name "index.x"] := by
    rw [Path.components_join_name (by decide),
      Path.components_normalize (List.ne_nil_of_mem hroot)]
  have hmem : (escapePlace spec).normalize.join ⟨"index.x"⟩
      ∈ rootNames (escapePlace spec).normalize [".x"] :=
    List.mem_cons_of_mem _ (List.mem_cons_of_mem _ List.mem_cons_self)
  have hexts : ∀ e ∈ Settings.defaultResolveExtensions,
      "index.x" ≠ e ∧ "index.x" ≠ "index" ++ e := by decide
  refine exists_find_escapeContext hcore ?_ hmem ?_
  · cases ha : (Path.mk spec).isAbsolute with
    | true =>
      have hplace : escapePlace spec = ⟨spec⟩ := Path.join_of_isAbsolute ha
      rw [hplace] at hq ⊢
      exact outward_misses_of_isAbsolute ha (by decide) hexts hq
    | false =>
      refine outward_misses_escape ha ?_
      rw [isAbsolute_join_name (by decide), Path.isAbsolute_normalize]
      exact Path.root_mem_normalComponents_iff.1 hroot
  · rw [liesIn_escapeDirectory_iff, hq]
    intro hin
    rcases List.mem_append.1 (hin.subset (List.mem_cons_of_mem _ List.mem_cons_self)) with h | h
    · exact hunknown h
    · have hindex : "index.x" ≠ newName [spec] := ne_newName (c := 'i') (by decide) (by decide)
      exact hindex (Component.name.inj (List.mem_singleton.1 h)).symm

/-- A specifier of which nothing is left leads to the directory itself, and an ending makes
another name of it. -/
theorem exists_aliased_outside_of_eq_nil (hcore : isCore spec = false)
    (h : (Path.mk spec).normalComponents = []) :
    ∃ d p, (find (escapeContext spec) spec ⟨"."⟩).run d = .ok (.aliased p) ∧
      ¬p.LiesIn (escapeDirectory spec) := by
  have hnames : ∀ c ∈ (Path.mk spec).normalComponents, c.isName = true := by simp [h]
  have hjoin : (escapePlace spec).normalComponents
      = [Component.root] ++ [.name (newName [spec])] := by
    rw [escapePlace, Path.normalComponents_join_of_names _ hnames, h,
      normalComponents_escapeDirectory]
    rfl
  have hq := Path.components_withSuffix_normalize hjoin
    (properName_newName.append_extension (show ValidExtension ".x" by decide))
  rw [List.singleton_append] at hq
  refine exists_find_escapeContext hcore ?_ (List.mem_cons_of_mem _ List.mem_cons_self) ?_
  · refine outward_misses_escape (Path.isAbsolute_of_names hnames) ?_
    rw [Path.isAbsolute_iff_head?, hq]
    rfl
  · rw [liesIn_escapeDirectory_iff, hq]
    rintro ⟨rest, hrest⟩
    rw [List.cons_append, List.cons_append] at hrest
    have hname := Component.name.inj (List.cons.inj (List.cons.inj hrest).2).1
    refine ne_newName (c := 'x') ?_ (by decide) hname.symm
    rw [String.toList_append]
    exact List.mem_append_right _ (by decide)

/-- For every specifier that does not descend a file can be found outside of the directory. -/
theorem exists_aliased_outside (hcore : isCore spec = false) (h : ¬Descends spec) :
    ∃ d p, (find (escapeContext spec) spec ⟨"."⟩).run d = .ok (.aliased p) ∧
      ¬p.LiesIn (escapeDirectory spec) := by
  by_cases hnames : ∀ c ∈ (Path.mk spec).normalComponents, c.isName = true
  · exact exists_aliased_outside_of_eq_nil hcore
      (Decidable.byContradiction fun hne => h ⟨hne, hnames⟩)
  · obtain ⟨b, hb⟩ := Classical.not_forall.1 hnames
    obtain ⟨hb, hn⟩ := Classical.not_imp.1 hb
    exact exists_aliased_outside_of_not_isName hcore hb (Bool.eq_false_iff.2 hn)

end Escape

/-! ## Directories without a name -/

theorem descends_of_properName {s : String} (h : ProperName s) : Descends s := by
  rw [Descends, Path.normalComponents_of_properName h]
  simp [Component.isName]

/-- A path of one name lies in no directory that does not know the name. -/
theorem not_liesIn_of_components_eq {p dir : Path} {s : String} (hp : p.components = [.name s])
    (hs : .name s ∉ dir.normalComponents) : ¬p.LiesIn dir := by
  rw [Path.LiesIn, hp]
  rintro ⟨rest, hrest⟩
  cases hdir : dir.normalComponents with
  | nil =>
    rw [Path.normalize_of_eq_nil hdir] at hrest
    exact Component.noConfusion (List.cons.inj hrest).1
  | cons c cs =>
    rw [Path.components_normalize (hdir ▸ List.cons_ne_nil c cs), hdir] at hrest
    refine hs ?_
    rw [hdir, ← (List.cons.inj hrest).1]
    exact List.mem_cons_self

/-- In a directory whose normal form is `.` a file is found that has no `.` in front. -/
theorem exists_aliased_outside_of_not_rootsNamed {ctx : Context} (h : ¬ctx.RootsNamed) :
    ∃ d spec p, Descends spec ∧ (find ctx spec ⟨"/"⟩).run d = .ok (.aliased p) ∧
      ∀ root ∈ ctx.aliasRoots, ¬p.LiesIn (ctx.projectRoot.join ⟨root⟩) := by
  obtain ⟨root, hroot⟩ := Classical.not_forall.1 h
  obtain ⟨hroot, hdot⟩ := Classical.not_imp.1 hroot
  have hdir := Path.normalize_eq_dot_iff.1 (Decidable.not_not.1 hdot)
  -- the specifier is in the name of no directory
  let spec := newName (ctx.aliasRoots.map fun r => (ctx.projectRoot.join ⟨r⟩).text)
  have hname : ProperName spec := properName_newName
  have hspec := Path.normalComponents_of_properName hname
  let place := (ctx.projectRoot.join ⟨root⟩).join ⟨spec⟩
  have hplace : place.normalComponents = [.name spec] := by
    rw [Path.normalComponents_join_of_names _ (descends_of_properName hname).2, hdir, hspec]
    rfl
  have hq : place.normalize.components = [.name spec] := by
    rw [Path.components_normalize (by rw [hplace]; simp), hplace]
  have hrelative : place.normalize.isAbsolute = false := by
    rw [Bool.eq_false_iff]
    intro ha
    rw [Path.isAbsolute_iff_head?, hq] at ha
    cases ha
  have hmiss : (outwardCandidates (Memory.oneFile place.normalize).disk ctx spec
      ⟨"/"⟩).findSome? (Candidate.verdict? (Memory.oneFile place.normalize).disk) = none := by
    refine outward_misses_of_isAbsolute_ne (Path.isAbsolute_of_properName hname)
      (by decide +kernel) ?_
    rw [hrelative]
    decide
  obtain ⟨p, hfind, hp⟩ := exists_find_eq_aliased isCore_newName hmiss hroot
    List.mem_cons_self (isFile_oneFile.2 rfl)
  refine ⟨_, spec, p, descends_of_properName hname, hfind, fun r hr => ?_⟩
  refine not_liesIn_of_components_eq ((isFile_oneFile.1 hp).trans hq) ?_
  exact newName_not_mem_normalComponents (List.mem_map.2 ⟨r, hr, rfl⟩)

/-- **Where files stay in the project's own directories.** For a specifier, a file that is found
there lies in one of the directories, whatever the files, the requesting directory and the
context with named directories, exactly when the specifier descends or is not looked for at all.
For a context, the files of all specifiers that descend do so exactly when its directories are
named. -/
theorem aliased_liesIn_iff (ctx : Context) (spec : String) :
    ((∀ (d : Disk) (other : Context) (start p : Path), other.RootsNamed →
        (find other spec start).run d = .ok (.aliased p) →
        ∃ root ∈ other.aliasRoots, p.LiesIn (other.projectRoot.join ⟨root⟩)) ↔
      isCore spec = true ∨ Descends spec) ∧
    ((∀ (d : Disk) (below : String) (start p : Path), Descends below →
        (find ctx below start).run d = .ok (.aliased p) →
        ∃ root ∈ ctx.aliasRoots, p.LiesIn (ctx.projectRoot.join ⟨root⟩)) ↔
      ctx.RootsNamed) := by
  refine ⟨⟨fun h => ?_, ?_⟩, fun h => ?_, ?_⟩
  · cases hcore : isCore spec with
    | true => exact .inl rfl
    | false =>
      refine .inr (Decidable.byContradiction fun hspec => ?_)
      obtain ⟨d, p, hfind, hout⟩ := exists_aliased_outside hcore hspec
      obtain ⟨root, hroot, hin⟩ := h d _ _ p rootsNamed_escapeContext hfind
      obtain rfl := List.mem_singleton.1 hroot
      exact hout hin
  · rintro (hcore | hspec) d other start p hother hfind
    · rw [(exists_root_of_find_eq_aliased hfind).1] at hcore
      cases hcore
    · exact exists_liesIn_of_descends hother hspec hfind
  · refine Classical.byContradiction fun hctx => ?_
    obtain ⟨d, below, p, hbelow, hfind, hout⟩ := exists_aliased_outside_of_not_rootsNamed hctx
    obtain ⟨root, hroot, hin⟩ := h d below _ p hbelow hfind
    exact hout root hroot hin
  · intro hctx d below start p hbelow hfind
    exact exists_liesIn_of_descends hctx hbelow hfind

theorem validRoot_src : ∀ root ∈ ["src"], ValidRoot root := by
  decide

/-- A project in `/p` with its own sources in `src`. -/
def sourceContext : Context :=
  { Context.withDefaults ⟨"/p"⟩ with
    aliasRoots := ["src"]
    aliasRoots_valid := validRoot_src }

/-- `../x` climbs out of `src`, and is found there all the same. -/
theorem find_climbing_eq_aliased :
    (find sourceContext "../x" ⟨"/p/lib/deep"⟩).run (Memory.oneFile ⟨"/p/x.js"⟩).disk
        = .ok (.aliased ⟨"/p/x.js"⟩) ∧
      ∀ root ∈ sourceContext.aliasRoots,
        ¬(Path.mk "/p/x.js").LiesIn (sourceContext.projectRoot.join ⟨root⟩) :=
  ⟨eq_ok_of_toOption_eq (by decide +kernel), by decide +kernel⟩

end ModuleLookup
