import ModuleLookup.Proofs.Lookup.Names

/-!
# Lookups in a memory of one file

With only one file on the disk the search outwards finds that file or nothing, and it finds
nothing when no name that it tries is the file's.

* `isFile_oneFile` — there is one file, whatever the spelling.
* `outward_misses_of_isAbsolute_ne` — from a relative directory an absolute file is missed, and
  from an absolute one a relative file.
* `outward_misses_of_isAbsolute` — for an absolute specifier, a file behind it is missed that has
  none of the names that are tried there.
-/

namespace ModuleLookup

/-- The memory that holds one file. -/
def Memory.oneFile (p : Path) : Memory :=
  Memory.empty.write p ⟨"", none, none, true⟩

theorem isFile_oneFile {p q : Path} :
    (Memory.oneFile q).disk (.isFile p) = true ↔ p.Same q := by
  have h : (Memory.oneFile q).disk (.isFile p) = ((Memory.oneFile q).file? p).isSome := rfl
  rw [h]
  by_cases hp : p.Same q
  · rw [Memory.oneFile, Memory.file?_write_self _ _ hp]
    exact ⟨fun _ => hp, fun _ => rfl⟩
  · rw [Memory.oneFile, Memory.file?_write_of_not_same _ _ hp]
    exact ⟨fun h => absurd h Bool.false_ne_true, fun h => absurd h hp⟩

/-! ## One path -/

/-- A path leads nowhere when none of its names does. -/
theorem findSome?_block_eq_none {d : Disk} {exts : List String} {p : Path}
    (h : ∀ q ∈ p.join ⟨"package.json"⟩ :: (fileNames p exts ++ indexNames p exts),
      ¬d (.isFile q) = true) :
    (block d exts p).findSome? (Candidate.verdict? d) = none := by
  rw [List.findSome?_eq_none_iff, block, directoryBlock, if_neg (h _ List.mem_cons_self),
    ← List.map_append]
  intro c hc
  obtain ⟨q, hq, rfl⟩ := List.mem_map.1 hc
  rw [Candidate.verdict?, if_neg (h q (List.mem_cons_of_mem _ hq))]

section OneFile

variable {ctx : Context} {spec : String} {start p q : Path} {exts : List String}

theorem block_misses_of_isAbsolute_ne (hexts : ∀ e ∈ exts, ValidExtension e)
    (h : p.isAbsolute ≠ q.isAbsolute) :
    (block (Memory.oneFile q).disk exts p).findSome?
      (Candidate.verdict? (Memory.oneFile q).disk) = none := by
  refine findSome?_block_eq_none fun r hr hfile => h ?_
  rw [← isAbsolute_of_mem_names hexts hr, (isFile_oneFile.1 hfile).isAbsolute_eq]

/-- Behind the root, an ending is all there is of a name. -/
theorem components_root_withSuffix {e : String} (he : ValidExtension e) :
    ((Path.mk "/").withSuffix e).components
      = Component.root :: (Component.ofSegment? e.toList).toList := by
  have ha : (Path.mk e).isAbsolute = false := by
    rw [Bool.eq_false_iff]
    exact fun h => head?_ne_slash_of_validExtension he (Path.isAbsolute_iff.1 h)
  have hjoin : (Path.mk "/").withSuffix e = (Path.mk "/").join ⟨e⟩ := by
    rw [Path.join, ha, if_neg Bool.false_ne_true, String.back?_eq]
    rfl
  have hadded : (Path.mk e).added = (Component.ofSegment? e.toList).toList := by
    rw [Path.added, Path.segments_eq_singleton he.2.1]
    cases hc : Component.ofSegment? e.toList with
    | none => rw [List.filterMap_cons_none hc]; rfl
    | some c => rw [List.filterMap_cons_some hc]; rfl
  rw [hjoin, Path.components_join (by decide) ha, hadded]
  rfl

/-- An ending at an absolute normal form adds no component but its own, at the root. -/
theorem components_withSuffix_ne {e s : String} (hp : p.isAbsolute = true)
    (he : ValidExtension e) (hes : s ≠ e) :
    (p.normalize.withSuffix e).components ≠ p.normalComponents ++ [Component.name s] := by
  have hroot := Path.root_mem_normalComponents_iff.2 hp
  have hsettled := Path.settled_normalComponents p
  have hsplit := (List.dropLast_concat_getLast (List.ne_nil_of_mem hroot)).symm
  generalize p.normalComponents.dropLast = init at hsplit
  generalize p.normalComponents.getLast _ = c at hsplit
  rw [hsplit, List.reverse_append, List.reverse_singleton, List.singleton_append] at hsettled
  cases c with
  | name t =>
    have ht : ProperName t := hsettled.1
    rw [Path.components_withSuffix_normalize hsplit (ht.append_extension he), hsplit]
    simp
  | root =>
    obtain rfl : init = [] := List.reverse_eq_nil_iff.1 hsettled
    have hnormal : p.normalize = ⟨"/"⟩ := by
      rw [Path.normalize_of_ne_nil (List.ne_nil_of_mem hroot), hsplit]
      rfl
    rw [hnormal, components_root_withSuffix he, hsplit]
    intro heq
    have hname : Component.ofSegment? e.toList = some (.name s) :=
      Option.toList_eq_singleton_iff.1 (List.cons.inj heq).2
    exact hes (String.toList_inj.1 (Component.toList_of_ofSegment? hname))
  | parent =>
    -- below a parent there are only parents, and the root is somewhere
    rw [hsplit] at hroot
    rcases List.mem_append.1 hroot with hroot | hroot
    · cases hsettled .root (List.mem_reverse.2 hroot)
    · cases List.mem_singleton.1 hroot
  | current => exact hsettled.elim

/-- A name behind an absolute path is not met when it is none of those that are tried there. -/
theorem block_misses_of_isAbsolute {s : String} (hp : p.isAbsolute = true)
    (hexts : ∀ e ∈ exts, ValidExtension e) (hmanifest : s ≠ "package.json")
    (hs : ∀ e ∈ exts, s ≠ e ∧ s ≠ "index" ++ e)
    (hq : q.components = p.normalComponents ++ [Component.name s]) :
    (block (Memory.oneFile q).disk exts p.normalize).findSome?
      (Candidate.verdict? (Memory.oneFile q).disk) = none := by
  refine findSome?_block_eq_none fun r hr hfile => ?_
  have hbase := Path.components_normalize
    (List.ne_nil_of_mem (Path.root_mem_normalComponents_iff.2 hp))
  have hsame : r.components = p.normalComponents ++ [Component.name s] :=
    (isFile_oneFile.1 hfile).trans hq
  have hjoin {t : String} (ht : ProperName t) (hst : s ≠ t) (hrt : r = p.normalize.join ⟨t⟩) :
      False := by
    rw [hrt, Path.components_join_name ht, hbase] at hsame
    exact hst (Component.name.inj (List.cons.inj (List.append_cancel_left hsame)).1).symm
  rcases List.mem_cons.1 hr with hr | hr
  · exact hjoin (by decide) hmanifest hr
  · rcases List.mem_append.1 hr with hr | hr
    · rcases List.mem_cons.1 hr with rfl | hr
      · rw [hbase] at hsame
        exact absurd hsame (by simp)
      · obtain ⟨e, he, rfl⟩ := List.mem_map.1 hr
        exact components_withSuffix_ne hp (hexts e he) (hs e he).1 hsame
    · obtain ⟨e, he, hre⟩ := List.mem_map.1 hr
      exact hjoin (properName_index (hexts e he)) (hs e he).2 hre.symm

/-! ## The search outwards -/

theorem not_isAbsolute_of_kind_eq_bare (h : SpecifierKind.of spec = .bare) :
    (Path.mk spec).isAbsolute = false := by
  cases ha : (Path.mk spec).isAbsolute with
  | false => rfl
  | true =>
    rw [SpecifierKind.of, ha] at h
    split at h
    · cases h
    · rw [if_pos (.inr rfl)] at h
      cases h

/-- From a relative directory nothing absolute is tried, and from an absolute one nothing
relative. -/
theorem outward_misses_of_isAbsolute_ne (hspec : (Path.mk spec).isAbsolute = false)
    (hdirs : ∀ dir ∈ searchPath start, dir.isAbsolute = start.isAbsolute)
    (h : start.isAbsolute ≠ q.isAbsolute) :
    (outwardCandidates (Memory.oneFile q).disk ctx spec start).findSome?
      (Candidate.verdict? (Memory.oneFile q).disk) = none := by
  have hjoin (dir : Path) : (dir.join ⟨spec⟩).isAbsolute = dir.isAbsolute := by
    rw [Path.isAbsolute_join, hspec, Bool.false_or]
  rw [outwardCandidates]
  split
  · rfl
  · split
    · rfl
    · refine block_misses_of_isAbsolute_ne ctx.extensions_valid.2 ?_
      rwa [Path.isAbsolute_normalize, hjoin]
    · rw [List.findSome?_eq_none_iff]
      intro c hc
      obtain ⟨dir, hdir, hc⟩ := List.mem_flatMap.1 hc
      have hne : (dir.join ⟨spec⟩).isAbsolute ≠ q.isAbsolute := by
        rwa [hjoin, hdirs dir hdir]
      have hmiss := block_misses_of_isAbsolute_ne ctx.extensions_valid.2 hne
      exact List.findSome?_eq_none_iff.1 hmiss c hc

/-- For an absolute specifier only names at its own place are tried. -/
theorem outward_misses_of_isAbsolute {s : String} (hspec : (Path.mk spec).isAbsolute = true)
    (hmanifest : s ≠ "package.json") (hs : ∀ e ∈ ctx.extensions, s ≠ e ∧ s ≠ "index" ++ e)
    (hq : q.components = (Path.mk spec).normalComponents ++ [Component.name s]) :
    (outwardCandidates (Memory.oneFile q).disk ctx spec start).findSome?
      (Candidate.verdict? (Memory.oneFile q).disk) = none := by
  rw [outwardCandidates]
  split
  · rfl
  · split
    · rfl
    · rw [Path.join_of_isAbsolute hspec]
      exact block_misses_of_isAbsolute hspec ctx.extensions_valid.2 hmanifest hs hq
    · next hkind =>
      rw [not_isAbsolute_of_kind_eq_bare hkind] at hspec
      cases hspec

end OneFile

end ModuleLookup
