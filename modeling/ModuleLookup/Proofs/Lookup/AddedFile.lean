import ModuleLookup.Proofs.Lookup.OneFile

/-!
# One file more

A new file stands at some of the candidates of a lookup, or at none. As long as it is no
manifest it leaves the list of candidates as it is, so the search gets as far as before, unless
it meets the new file first. It cannot bring anything else to light.

* `Disk.SameManifests` — two disks have the same manifests; then the candidates are the same.
* `findSome?_write` — a search meets the new file, or it goes as before.
* `run_find_write` — so a lookup finds what it found, or the new file; and without a file that
  it did not find, nor any manifest, it finds what it found.
-/

namespace ModuleLookup

/-- The answers of a memory come from its files only. -/
theorem Memory.disk_eq_of_file?_eq {m n : Memory} (h : ∀ p, m.file? p = n.file? p) :
    m.disk = n.disk := by
  funext q
  cases q <;> simp only [disk, read, h]

/-! ## Manifests -/

/-- Two disks have the same manifests, with the same meaning. -/
structure Disk.SameManifests (d e : Disk) : Prop where
  /-- in the same directories -/
  isFile (dir : Path) : d (.isFile (dir.join ⟨"package.json"⟩))
    = e (.isFile (dir.join ⟨"package.json"⟩))
  /-- naming the same files, or broken in the same way -/
  mainAt (dir : Path) : mainAt d (dir.join ⟨"package.json"⟩)
    = ModuleLookup.mainAt e (dir.join ⟨"package.json"⟩)

section SameManifests

variable {d e : Disk}

theorem Disk.SameManifests.block_eq (h : d.SameManifests e) (exts : List String) :
    block d exts = block e exts := by
  funext p
  rw [block, block, directoryBlock, directoryBlock, h.isFile, h.mainAt]

/-- Only manifests make a difference to the list of candidates. -/
theorem Disk.SameManifests.candidates_eq (h : d.SameManifests e) (ctx : Context)
    (spec : String) (start : Path) : candidates d ctx spec start = candidates e ctx spec start := by
  rw [candidates, candidates, outwardCandidates, outwardCandidates, h.block_eq]

end SameManifests

/-! ## The new file -/

section AddedFile

variable {m : Memory} {x : Path}

/-- A file that is not called so is not the manifest of any directory. -/
theorem not_same_manifest (hx : x.fileName? ≠ some "package.json") (dir : Path) :
    ¬(dir.join ⟨"package.json"⟩).Same x := by
  intro h
  rw [Path.Same, Path.components_join_name (by decide)] at h
  exact hx (by rw [Path.fileName?, ← h, List.getLast?_concat])

theorem sameManifests_write (hx : x.fileName? ≠ some "package.json") (f : MemoryFile) :
    (m.write x f).disk.SameManifests m.disk where
  isFile dir := by
    have hfile := m.file?_write_of_not_same f (not_same_manifest hx dir)
    rw [Memory.disk, Memory.disk, hfile]
  mainAt dir := by
    have hfile := m.file?_write_of_not_same f (not_same_manifest hx dir)
    rw [mainAt, mainAt, Memory.disk, Memory.disk, Memory.read, Memory.read, hfile]

/-- A candidate is the new file, or it says what it said. -/
theorem verdict?_write (f : MemoryFile) (c : Candidate) :
    (∃ (s : Strategy) (q : Path), q.Same x ∧
        c.verdict? (m.write x f).disk = some (.ok (s.resolved q))) ∨
      c.verdict? (m.write x f).disk = c.verdict? m.disk := by
  cases c with
  | broken fault => exact .inr rfl
  | path s p =>
    by_cases hp : p.Same x
    · refine .inl ⟨s, p, hp, if_pos ?_⟩
      rw [Memory.disk, m.file?_write_self f hp]
      rfl
    · refine .inr ?_
      rw [Candidate.verdict?, Candidate.verdict?, Memory.disk, Memory.disk,
        m.file?_write_of_not_same f hp]

/-- **A search with one file more** meets that file, or it goes as before. -/
theorem findSome?_write (f : MemoryFile) (cs : List Candidate) :
    (∃ (s : Strategy) (q : Path), q.Same x ∧
        cs.findSome? (Candidate.verdict? (m.write x f).disk) = some (.ok (s.resolved q))) ∨
      cs.findSome? (Candidate.verdict? (m.write x f).disk)
        = cs.findSome? (Candidate.verdict? m.disk) := by
  induction cs with
  | nil => exact .inr rfl
  | cons c cs ih =>
    rw [List.findSome?_cons, List.findSome?_cons]
    rcases verdict?_write f c with ⟨s, q, hq, hc⟩ | hc
    · exact .inl ⟨s, q, hq, by rw [hc]⟩
    · -- the candidate decides both searches or neither of them
      rw [hc]
      rcases c.verdict? m.disk with _ | v
      · exact ih
      · exact .inr rfl

end AddedFile

/-- A lookup with one file more finds that file, or what it found. -/
theorem run_find_write_cases (m : Memory) {x : Path} (hx : x.fileName? ≠ some "package.json")
    (f : MemoryFile) (ctx : Context) (spec : String) (start : Path) :
    (find ctx spec start).run (m.write x f).disk = (find ctx spec start).run m.disk ∨
      ∃ q, q.Same x ∧ ((find ctx spec start).run (m.write x f).disk = .ok (.file q) ∨
        (find ctx spec start).run (m.write x f).disk = .ok (.aliased q)) := by
  cases hc : isCore spec with
  | true => exact .inl (by rw [(find_of_isCore ctx start hc).1, (find_of_isCore ctx start hc).1])
  | false =>
    rw [run_find_of_not_isCore ctx start hc, run_find_of_not_isCore ctx start hc,
      (sameManifests_write hx f).candidates_eq, firstHit, firstHit]
    rcases findSome?_write (m := m) (x := x) f (candidates m.disk ctx spec start) with
      ⟨s, q, hq, h⟩ | h
    · rw [h]
      cases s with
      | outward => exact .inr ⟨q, hq, .inl rfl⟩
      | aliasRoots => exact .inr ⟨q, hq, .inr rfl⟩
    · exact .inl (by rw [h])

/-- A file that was taken away and is put back is there again. -/
theorem Memory.exists_disk_write_remove (m : Memory) (x : Path) :
    (m.remove x).disk = m.disk ∨ ∃ f, ((m.remove x).write x f).disk = m.disk := by
  rcases hf : m.file? x with _ | f
  · refine .inl (disk_eq_of_file?_eq fun p => ?_)
    by_cases hp : p.Same x
    · rw [m.file?_remove_self hp, file?, hp, ← file?, hf]
    · exact m.file?_remove_of_not_same hp
  · refine .inr ⟨f, disk_eq_of_file?_eq fun p => ?_⟩
    by_cases hp : p.Same x
    · rw [file?_write_self _ f hp, file?, hp, ← file?, hf]
    · rw [file?_write_of_not_same _ f hp, m.file?_remove_of_not_same hp]

/-- **One file more can only win or be ignored.** Unless it is a manifest, a lookup then finds
that file, by some spelling of its path, or exactly what it found before, be it an error.
Likewise, taking away a file that is neither a manifest nor what a lookup finds leaves the
lookup as it is. -/
theorem run_find_write (m : Memory) (x : Path) (ctx : Context) (spec : String) (start : Path)
    (hx : x.fileName? ≠ some "package.json") :
    (∀ f : MemoryFile,
      (find ctx spec start).run (m.write x f).disk = (find ctx spec start).run m.disk ∨
      ∃ q, q.Same x ∧ ((find ctx spec start).run (m.write x f).disk = .ok (.file q) ∨
        (find ctx spec start).run (m.write x f).disk = .ok (.aliased q))) ∧
    ((∀ q, (find ctx spec start).run m.disk = .ok (.file q) ∨
        (find ctx spec start).run m.disk = .ok (.aliased q) → ¬q.Same x) →
      (find ctx spec start).run (m.remove x).disk = (find ctx spec start).run m.disk) := by
  refine ⟨fun f => run_find_write_cases m hx f ctx spec start, fun hfound => ?_⟩
  rcases m.exists_disk_write_remove x with h | ⟨f, h⟩
  · rw [h]
  · -- the memory with the file is the other one with one file more
    rcases run_find_write_cases (m.remove x) hx f ctx spec start with hrun | ⟨q, hq, hrun⟩
    · rw [← hrun, h]
    · rw [h] at hrun
      exact absurd hq (hfound q hrun)

/-- A new file `a.js` is found in place of `a.json`; taken away while there is none, it makes no
difference. -/
theorem run_find_write_endings :
    (Path.mk "/p/a.js").fileName? ≠ some "package.json" ∧
    (∃ q, q.Same ⟨"/p/a.js"⟩ ∧
      ((find (Context.withDefaults ⟨"/p"⟩) "./a" ⟨"/p"⟩).run
          ((Memory.oneFile ⟨"/p/a.json"⟩).write ⟨"/p/a.js"⟩ ⟨"", none, none, true⟩).disk
        = .ok (.file q) ∨
      (find (Context.withDefaults ⟨"/p"⟩) "./a" ⟨"/p"⟩).run
          ((Memory.oneFile ⟨"/p/a.json"⟩).write ⟨"/p/a.js"⟩ ⟨"", none, none, true⟩).disk
        = .ok (.aliased q))) ∧
    (find (Context.withDefaults ⟨"/p"⟩) "./a" ⟨"/p"⟩).run
        ((Memory.oneFile ⟨"/p/a.json"⟩).remove ⟨"/p/a.js"⟩).disk
      = (find (Context.withDefaults ⟨"/p"⟩) "./a" ⟨"/p"⟩).run
        (Memory.oneFile ⟨"/p/a.json"⟩).disk := by
  have hold : (find (Context.withDefaults ⟨"/p"⟩) "./a" ⟨"/p"⟩).run
      (Memory.oneFile ⟨"/p/a.json"⟩).disk = .ok (.file ⟨"/p/a.json"⟩) :=
    eq_ok_of_toOption_eq (by decide +kernel)
  have hnew : (find (Context.withDefaults ⟨"/p"⟩) "./a" ⟨"/p"⟩).run
      ((Memory.oneFile ⟨"/p/a.json"⟩).write ⟨"/p/a.js"⟩ ⟨"", none, none, true⟩).disk
      = .ok (.file ⟨"/p/a.js"⟩) :=
    eq_ok_of_toOption_eq (by decide +kernel)
  obtain ⟨hadd, hremove⟩ := run_find_write (Memory.oneFile ⟨"/p/a.json"⟩) ⟨"/p/a.js"⟩
    (Context.withDefaults ⟨"/p"⟩) "./a" ⟨"/p"⟩ (by decide)
  refine ⟨by decide, (hadd ⟨"", none, none, true⟩).resolve_left ?_, hremove fun q hq => ?_⟩
  · rw [hold, hnew]
    simp
  · rw [hold] at hq
    obtain rfl : Path.mk "/p/a.json" = q := by simpa using hq
    decide

end ModuleLookup
