import ModuleLookup.Proofs.Lookup.AliasRoots
import ModuleLookup.Proofs.Lookup.SearchPath
import ModuleLookup.Proofs.Lookup.Spelling

/-!
# Found files are fixed points

A lookup answers with a path as it was tried, and there are many ways to come to one: by itself, by
an ending, by an index, by a manifest, in the project's own directories. A path that climbs nowhere
already has the components of its normal form. So it may be looked up again by its text, from
anywhere, and the first thing that is tried then is the file that was found.

* `isAbsolute_of_mem_outwardCandidates` — what is tried from an absolute directory outwards is
  absolute.
* `run_resolve_text` — an absolute path is found when there is a file at its normal form.
* `found_again` — so files that were found are found again.
-/

namespace ModuleLookup

/-! ## Disks -/

/-- A disk tells files apart by the components of their paths only. -/
def Disk.RespectsPaths (d : Disk) : Prop :=
  ∀ p q : Path, p.Same q → d (.isFile p) = d (.isFile q)

theorem Memory.respectsPaths_disk (m : Memory) : Disk.RespectsPaths m.disk := by
  intro p q h
  have hfile : m.file? p = m.file? q := congrArg m.files.get? h
  exact congrArg Option.isSome hfile

section Found

variable {d : Disk} {ctx : Context} {spec : String} {start p : Path}

/-! ## Absolute directories -/

/-- What is tried for an absolute path is absolute, wherever a manifest leads. -/
theorem isAbsolute_of_mem_block {s : Strategy} {exts : List String} {q : Path}
    (hexts : ∀ e ∈ exts, ValidExtension e) (hp : p.isAbsolute = true)
    (h : .path s q ∈ block d exts p) : q.isAbsolute = true := by
  obtain ⟨-, m, hm, hq⟩ := exists_base_of_mem_block h
  rw [isAbsolute_of_mem_names hexts (List.mem_cons_of_mem _ hq)]
  rcases hm with rfl | ⟨main, rfl⟩
  · exact hp
  · rw [Path.isAbsolute_normalize, Path.isAbsolute_join, hp, Bool.or_true]

theorem isAbsolute_of_mem_searchPath (hstart : start.isAbsolute = true)
    (h : p ∈ searchPath start) : p.isAbsolute = true := by
  obtain ⟨names, -, -, hc⟩ := components_of_mem_searchPath hstart h
  rw [Path.isAbsolute_iff_head?, hc]
  rfl

/-- What is tried from an absolute directory outwards is absolute. -/
theorem isAbsolute_of_mem_outwardCandidates {s : Strategy} (hstart : start.isAbsolute = true)
    (h : .path s p ∈ outwardCandidates d ctx spec start) : p.isAbsolute = true := by
  have hjoin {dir : Path} (hdir : dir.isAbsolute = true) :
      (dir.join ⟨spec⟩).isAbsolute = true := by
    rw [Path.isAbsolute_join, hdir, Bool.or_true]
  unfold outwardCandidates at h
  split at h
  · exact absurd h List.not_mem_nil
  · split at h
    · exact absurd h List.not_mem_nil
    · refine isAbsolute_of_mem_block ctx.extensions_valid.2 ?_ h
      rw [Path.isAbsolute_normalize, hjoin hstart]
    · obtain ⟨dir, hdir, h⟩ := List.mem_flatMap.1 h
      have habs := isAbsolute_of_mem_searchPath hstart hdir
      exact isAbsolute_of_mem_block ctx.extensions_valid.2 (hjoin habs) h

/-- A file found from an absolute directory outwards is absolute. -/
theorem isAbsolute_of_find_eq_file (hstart : start.isAbsolute = true)
    (h : (find ctx spec start).run d = .ok (.file p)) : p.isAbsolute = true := by
  obtain ⟨-, s, hs, -, hr⟩ := exists_candidate_of_find h rfl
  cases s with
  | aliasRoots => cases hr
  | outward =>
    rcases List.mem_append.1 hs with hs | hs
    · exact isAbsolute_of_mem_outwardCandidates hstart hs
    · obtain ⟨root, -, q, -, heq⟩ := mem_aliasCandidates_iff.1 hs
      cases heq

/-! ## Looking up a path -/

/-- An absolute path is looked up at its normal form first, from any directory. -/
theorem run_resolve_text (hp : p.isAbsolute = true) (hfile : d (.isFile p.normalize) = true)
    (other : Context) (dir : Path) :
    (resolve other p.text dir).run d = .ok (.file p.normalize) := by
  have hkind : SpecifierKind.of p.text = .relative := kind_of_isAbsolute hp
  have hcore : isCore p.text = false := by
    rw [Bool.eq_false_iff]
    intro hc
    rw [kind_eq_core_iff.2 hc] at hkind
    cases hkind
  have hempty : p.text ≠ "" := by
    intro ht
    rw [ht] at hkind
    exact absurd hkind (by decide)
  have hjoin : dir.join ⟨p.text⟩ = p := Path.join_of_isAbsolute hp
  have hverdict : Candidate.verdict? d (.path .outward p.normalize)
      = some (.ok (.file p.normalize)) :=
    verdict?_eq_ok_iff.2 ⟨.outward, _, rfl, hfile, rfl⟩
  rw [run_resolve other dir hcore, outwardCandidates, if_neg hempty, hkind]
  simp only [hjoin]
  rw [firstHit, block, fileNames, List.map_cons, List.cons_append, List.findSome?_cons, hverdict]
  rfl

end Found

/-- **Found files are fixed points.** On a disk that tells files apart by what their paths mean, an
absolute path without `..` that any lookup finds, outwards or in the project's own directories, is a
file and the same path as its normal form, and looking up its text finds the normal form, from any
directory and in any context. A file found outwards from an absolute directory is absolute. -/
theorem found_again :
    (∀ d : Disk, d.RespectsPaths → ∀ (ctx : Context) (spec : String) (start p : Path),
      (find ctx spec start).run d = .ok (.file p) ∨
        (find ctx spec start).run d = .ok (.aliased p) →
      p.isAbsolute = true → .parent ∉ p.components →
      d (.isFile p) = true ∧ p.normalize.Same p ∧
        ∀ (other : Context) (dir : Path),
          (resolve other p.text dir).run d = .ok (.file p.normalize)) ∧
    ∀ (d : Disk) (ctx : Context) (spec : String) (start p : Path), start.isAbsolute = true →
      (find ctx spec start).run d = .ok (.file p) → p.isAbsolute = true := by
  refine ⟨?_, fun d ctx spec start p => isAbsolute_of_find_eq_file⟩
  intro d hd ctx spec start p hfind ha hp
  have hfile : d (.isFile p) = true := by
    rcases hfind with hfind | hfind
    · obtain ⟨-, s, -, hfile, -⟩ := exists_candidate_of_find hfind rfl
      exact hfile
    · obtain ⟨-, s, -, hfile, -⟩ := exists_candidate_of_find hfind rfl
      exact hfile
  have hsame := Path.normalize_same ha hp
  have hnormal : d (.isFile p.normalize) = true := by rw [hd _ _ hsame, hfile]
  exact ⟨hfile, hsame, run_resolve_text ha hnormal⟩

/-- A file in a package, which is asked for with separators to spare. -/
theorem found_again_spared :
    (find (Context.withDefaults ⟨"/p"⟩) "pkg//lib/./x" ⟨"/p"⟩).run
        (Memory.oneFile ⟨"/p/node_modules/pkg/lib/x.js"⟩).disk
      = .ok (.file ⟨"/p/node_modules/pkg//lib/./x.js"⟩) ∧
    (resolve (Context.withDefaults ⟨"/q"⟩) "/p/node_modules/pkg//lib/./x.js" ⟨"elsewhere"⟩).run
        (Memory.oneFile ⟨"/p/node_modules/pkg/lib/x.js"⟩).disk
      = .ok (.file ⟨"/p/node_modules/pkg/lib/x.js"⟩) := by
  have hfind : (find (Context.withDefaults ⟨"/p"⟩) "pkg//lib/./x" ⟨"/p"⟩).run
      (Memory.oneFile ⟨"/p/node_modules/pkg/lib/x.js"⟩).disk
        = .ok (.file ⟨"/p/node_modules/pkg//lib/./x.js"⟩) :=
    eq_ok_of_toOption_eq (by decide +kernel)
  have hnormal : (Path.mk "/p/node_modules/pkg//lib/./x.js").normalize
      = ⟨"/p/node_modules/pkg/lib/x.js"⟩ := by decide +kernel
  have habs := found_again.2 _ _ _ _ _ (by decide) hfind
  obtain ⟨-, -, hagain⟩ := found_again.1 _ (Memory.respectsPaths_disk _) _ _ _ _ (.inl hfind) habs
    (by decide +kernel)
  rw [hnormal] at hagain
  exact ⟨hfind, hagain _ _⟩

end ModuleLookup
