import ModuleLookup.Disk.Memory
import ModuleLookup.Project.Check
import ModuleLookup.Proofs.Lookup.BrokenManifest
import ModuleLookup.Report.Listing

/-!
# What a check tells of errors

A check tells a broken manifest from any other error of a lookup; the latter it would report as if
the source file could not be read. No lookup ends with such an error, so that is reported of files
only.

* `findingOf` — what a check tells of a reference, by any error that its lookup may end with;
  `map_finding_problem?` — it is what is told of the errors that there are.
* `ends_lookUpAll`, `ends_checkFile` — a broken manifest in the report on a file was met by one of
  the lookups, and was the last that this lookup asked about; a file that cannot be read is the
  first and last that was asked about.
* `errors_from_brokenManifest` — only a broken manifest makes an error.
-/

namespace ModuleLookup

/-! ## Findings -/

/-- What a check tells of a file, or of a reference in it. -/
structure Finding where
  /-- the file -/
  file : Path
  /-- the reference -/
  reference? : Option Reference
  /-- the word for what is wrong -/
  word : String
  /-- what else there is to say -/
  message? : Option String

/-- What is told by a problem. -/
def Problem.finding (problem : Problem) : Finding :=
  ⟨problem.file, problem.reference?, problem.word, problem.message?⟩

/-- What is told of a reference. An error that is about no manifest would be told like that of a
file which cannot be read. -/
def findingOf (file : Path) (r : Reference) : Except Error Resolved → Option Finding
  | .ok .notFound => some ⟨file, some r, "unresolved", none⟩
  | .ok _ => none
  | .error e =>
    if e.manifestPath?.isSome then some ⟨file, some r, "manifest_error", some e.message⟩
    else some ⟨file, some r, "read_error", some e.message⟩

section Findings

variable {file : Path} {r : Reference} {result : Except ManifestFault Resolved}

theorem map_finding_problem? :
    (LookedUp.problem? file ⟨r, result⟩).map Problem.finding
      = findingOf file r (result.mapError Error.manifest) := by
  rcases result with fault | resolved
  · rfl
  · cases resolved <;> rfl

/-- Of a reference it is never told that it cannot be read. -/
theorem word_ne_of_findingOf {f : Finding}
    (h : findingOf file r (result.mapError Error.manifest) = some f) : f.word ≠ "read_error" := by
  rcases result with fault | resolved
  · cases h
    exact (by decide : "manifest_error" ≠ "read_error")
  · cases resolved with
    | notFound =>
      cases h
      exact (by decide : "unresolved" ≠ "read_error")
    | _ => cases h

end Findings

/-! ## Checks -/

section Checks

variable {ctx : Context} {cache cache' : Option Cache} {es : List Exchange}

/-- Every broken manifest that looked up references tell of was met by one of the lookups. -/
theorem ends_lookUpAll {start : Path} {rs : List Reference} {all : List LookedUp}
    (h : (lookUpAll ctx start cache rs).Ends es (all, cache')) :
    ∀ l ∈ all, ∀ fault, l.result = .error fault → ∃ met, met <:+: es ∧
      Aborted ctx.extensions (basesOf l.reference.raw start) met fault := by
  induction rs generalizing cache es all with
  | nil =>
    obtain ⟨-, ⟨⟩⟩ := Program.ends_done_iff.1 h
    exact fun l hl => absurd hl List.not_mem_nil
  | cons r rs ih =>
    obtain ⟨⟨result, cache₁⟩, before, after, rfl, hr, h⟩ := Program.ends_bind_iff.1 h
    obtain ⟨⟨rest, cache₂⟩, later, last, rfl, hrs, h⟩ := Program.ends_bind_iff.1 h
    obtain ⟨rfl, ⟨⟩⟩ := Program.ends_done_iff.1 h
    rw [List.append_nil]
    intro l hl fault hfault
    rcases List.mem_cons.1 hl with rfl | hl
    · dsimp only at hfault
      subst hfault
      obtain ⟨-, checked, met, rfl, -, hmet⟩ := ends_findCached_error_iff.1 hr
      exact ⟨met, ⟨checked, later, rfl⟩, hmet⟩
    · obtain ⟨met, hinfix, hmet⟩ := ih hrs l hl fault hfault
      exact ⟨met, hinfix.trans (List.suffix_append before later).isInfix, hmet⟩

/-- **The problems in a file** come from that file, which could not be read, or from its references,
and then a broken manifest was met by one of the lookups. -/
theorem ends_checkFile {file : Path} {report : FileReport}
    (h : (checkFile ctx cache file).Ends es (report, cache')) {problem : Problem}
    (hp : problem ∈ report.problems) :
    (problem.word = "read_error" → problem.reference? = none ∧
      ∃ fault, es = [⟨.readBytes file, .error fault⟩]) ∧
    ∀ r fault, problem = .brokenManifest file r fault → ∃ met, met <:+: es ∧
      Aborted ctx.extensions (basesOf r.raw (startOf file)) met fault := by
  obtain ⟨source, read, rest, rfl, hread, h⟩ := Program.ends_bind_iff.1 h
  obtain ⟨bytes, asked, last, rfl, hasked, hsource⟩ := Program.ends_bind_iff.1 hread
  obtain rfl := Program.ends_query_iff.1 hasked
  obtain ⟨rfl, rfl⟩ := Program.ends_done_iff.1 hsource
  rcases bytes with fault | bytes
  · obtain ⟨rfl, ⟨⟩⟩ := Program.ends_done_iff.1 h
    obtain rfl := List.mem_singleton.1 hp
    exact ⟨fun _ => ⟨rfl, fault, rfl⟩, fun r fault h => by cases h⟩
  · obtain ⟨⟨all, cache₁⟩, looked, last, rfl, hall, h⟩ := Program.ends_bind_iff.1 h
    obtain ⟨rfl, ⟨⟩⟩ := Program.ends_done_iff.1 h
    obtain ⟨⟨r, result⟩, hl, hproblem⟩ := List.mem_filterMap.1 hp
    simp only [List.append_nil]
    constructor
    · intro hword
      have hfinding : findingOf file r (result.mapError Error.manifest) = some problem.finding := by
        rw [← map_finding_problem?, hproblem]
        rfl
      exact absurd hword (word_ne_of_findingOf hfinding)
    · rintro r' fault rfl
      rcases result with other | resolved
      · cases hproblem
        obtain ⟨met, hinfix, hmet⟩ := ends_lookUpAll hall _ hl fault rfl
        exact ⟨met, hinfix.trans (List.suffix_append _ looked).isInfix, hmet⟩
      · cases resolved <;> cases hproblem

end Checks

/-- **Only a broken manifest makes an error**, whatever comes back from the file system, even if it
changes while it is being asked. The paths of a lookup are those at which its candidates stand. It
ends with an error after just those exchanges in which everything before has missed and the manifest
of one of its paths is there and broken; reading it is the last exchange, and the error names it. A
lookup through a cache keeps nothing of it. In the report on a file such an error is told of a
broken manifest, as there are no others. -/
theorem errors_from_brokenManifest (ctx : Context) :
    (∀ spec start d, outwardCandidates d ctx spec start
      = (basesOf spec start).flatMap (block d ctx.extensions)) ∧
    (∀ spec start es fault,
      ((resolve ctx spec start).Ends es (.error fault) ↔
        Aborted ctx.extensions (basesOf spec start) es fault) ∧
      ((find ctx spec start).Ends es (.error fault) ↔
        Aborted ctx.extensions (basesOf spec start) es fault) ∧
      (∀ cache cache', (findCached ctx cache spec start).Ends es (.error fault, cache') ↔
        cache' = cache ∧ ∃ before after, es = before ++ after ∧
          NotServed cache (CacheKey.of ctx spec start) before ∧
          Aborted ctx.extensions (basesOf spec start) after fault) ∧
      (Aborted ctx.extensions (basesOf spec start) es fault →
        ∃ p ∈ basesOf spec start,
          (Error.manifest fault).manifestPath? = some (p.join ⟨"package.json"⟩) ∧
          ∃ before text, BrokenAs text fault.cause ∧
            es = before ++ [⟨.isFile (p.join ⟨"package.json"⟩), true⟩,
              ⟨.readText (p.join ⟨"package.json"⟩), text⟩])) ∧
    (∀ file r (result : Except ManifestFault Resolved),
      (LookedUp.problem? file ⟨r, result⟩).map Problem.finding
        = findingOf file r (result.mapError Error.manifest) ∧
      ∀ f, findingOf file r (result.mapError Error.manifest) = some f → f.word ≠ "read_error") ∧
    ∀ file cache cache' es report,
      (checkFile ctx cache file).Ends es (report, cache') → ∀ problem ∈ report.problems,
        (problem.word = "read_error" → problem.reference? = none ∧
          ∃ fault, es = [⟨.readBytes file, .error fault⟩]) ∧
        ∀ r fault, problem = .brokenManifest file r fault → ∃ met, met <:+: es ∧
          Aborted ctx.extensions (basesOf r.raw (startOf file)) met fault := by
  refine ⟨fun spec start d => outwardCandidates_eq_flatMap d ctx spec start,
    fun spec start es fault => ⟨ends_resolve_error_iff, ends_find_error_iff,
      fun cache cache' => ends_findCached_error_iff, fun h => ?_⟩,
    fun file r result => ⟨map_finding_problem?, fun f => word_ne_of_findingOf⟩,
    fun file cache cache' es report h problem hp => ends_checkFile h hp⟩
  obtain ⟨p, hp, hpath, before, text, hes, hbroken⟩ := h.exists_last
  exact ⟨p, hp, congrArg some hpath, before, text, hbroken, hes⟩

/-- A source file that refers to a package with an empty manifest. -/
def emptyManifest : Memory :=
  (Memory.empty.write ⟨"/p/node_modules/pkg/package.json"⟩ ⟨"", none, none, true⟩).write
    ⟨"/p/a.js"⟩ ⟨"require('pkg')", none, none, true⟩

/-- The manifest is reported, and it was the last that a lookup asked about. -/
theorem errors_from_brokenManifest_emptyManifest :
    ∃ (r : Reference) (fault : ManifestFault) (met : List Exchange),
      ((checkFile (.withDefaults ⟨"/p"⟩) none ⟨"/p/a.js"⟩).run emptyManifest.disk).1.problems
        = [.brokenManifest ⟨"/p/a.js"⟩ r fault] ∧
      met <:+: ((checkFile (.withDefaults ⟨"/p"⟩) none ⟨"/p/a.js"⟩).asked emptyManifest.disk).map
        (fun q => ⟨q, emptyManifest.disk q⟩) ∧
      ∃ p ∈ basesOf r.raw ⟨"/p"⟩, ∃ before text, BrokenAs text fault.cause ∧
        fault.path = p.join ⟨"package.json"⟩ ∧
        met = before ++ [⟨.isFile (p.join ⟨"package.json"⟩), true⟩,
          ⟨.readText (p.join ⟨"package.json"⟩), text⟩] := by
  have hproblems : ((checkFile (.withDefaults ⟨"/p"⟩) none ⟨"/p/a.js"⟩).run
      emptyManifest.disk).1.problems.map (fun problem => (problem.file, problem.word))
        = [(⟨"/p/a.js"⟩, "manifest_error")] := by
    decide +kernel
  have hends := Program.ends_asked emptyManifest.disk
    (checkFile (.withDefaults ⟨"/p"⟩) none ⟨"/p/a.js"⟩)
  rcases hrun : (checkFile (.withDefaults ⟨"/p"⟩) none ⟨"/p/a.js"⟩).run emptyManifest.disk
    with ⟨report, cache⟩
  rw [hrun] at hends hproblems
  obtain ⟨problem, hone, hproblem⟩ := List.map_eq_singleton_iff.1 hproblems
  obtain ⟨hfile, hword⟩ := Prod.mk.inj hproblem
  have hmem : problem ∈ report.problems := hone ▸ List.mem_singleton_self problem
  cases problem with
  | brokenManifest file r fault =>
    obtain rfl : file = ⟨"/p/a.js"⟩ := hfile
    obtain ⟨-, hlookups, -, hchecks⟩ := errors_from_brokenManifest (.withDefaults ⟨"/p"⟩)
    obtain ⟨met, hinfix, hmet⟩ := (hchecks _ _ _ _ _ hends _ hmem).2 r fault rfl
    obtain ⟨-, -, -, hlast⟩ := hlookups r.raw (startOf ⟨"/p/a.js"⟩) met fault
    obtain ⟨p, hp, hpath, before, text, hbroken, hes⟩ := hlast hmet
    have hstart : startOf ⟨"/p/a.js"⟩ = ⟨"/p"⟩ := by decide +kernel
    rw [hstart] at hp
    exact ⟨r, fault, met, hone, hinfix, p, hp, before, text, hbroken, Option.some.inj hpath, hes⟩
  | unresolved _ _ => exact absurd hword (by decide : "unresolved" ≠ "manifest_error")
  | unreadable _ _ => exact absurd hword (by decide : "read_error" ≠ "manifest_error")

end ModuleLookup
