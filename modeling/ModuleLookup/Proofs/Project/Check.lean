import ModuleLookup.Project.Check
import ModuleLookup.Proofs.Cache.Transparency

/-!
# A check is a list of plain lookups

The files of a project are checked at the same time, with one cache for all of them. The
report does not show it: it is what one gets by going through the files in order and
looking up every reference without a cache.

* `plainReport` — that report: `problemOf` says what is wrong with one reference,
  `problemsIn` with one file. `plainReport_ok_iff` says when nothing is.
* `checkFileWork` — the steps of a check of one file; `gives_checkFileWork` — whatever
  right results it meets in the cache, its report is the plain one.
* `run_check` — the report on files that are checked one after the other is the plain one, and
  `ofFiles_of_works_eq` — so is that on files that take turns.
* `check_eq_plainReport` — so is the report on the project, whether the files are checked
  one after the other or take turns in any order.
-/

namespace ModuleLookup

/-! ## Without a cache -/

/-- What is wrong with a reference in a file. -/
def problemOf (d : Disk) (ctx : Context) (file : Path) (r : Reference) : Option Problem :=
  match (find ctx r.raw (startOf file)).run d with
  | .ok .notFound => some (.unresolved file r)
  | .ok _ => none
  | .error fault => some (.brokenManifest file r fault)

/-- The references in a file; there are none in a file that cannot be read. -/
def referencesIn (d : Disk) (file : Path) : List Reference :=
  match d (.readBytes file) with
  | .error _ => []
  | .ok bytes => references (decodeLossy bytes)

/-- What is wrong with a file: that it cannot be read, or something about each of some
references. -/
def problemsIn (d : Disk) (ctx : Context) (file : Path) : List Problem :=
  match d (.readBytes file) with
  | .error fault => [.unreadable file fault]
  | .ok _ => (referencesIn d file).filterMap (problemOf d ctx file)

/-- The report on a project, from lookups without a cache in the order of the files. -/
def plainReport (d : Disk) (ctx : Context) (root : Path) (files : List Path) :
    CheckReport where
  root := root
  filesScanned := files.length
  specifiers := (files.flatMap (referencesIn d)).length
  problems := files.flatMap (problemsIn d ctx)

section Plain

variable {d : Disk} {ctx : Context}

/-- Nothing is wrong with a reference that means something. -/
theorem problemOf_eq_none_iff {file : Path} {r : Reference} :
    problemOf d ctx file r = none ↔
      ∃ resolved, (find ctx r.raw (startOf file)).run d = .ok resolved ∧
        resolved ≠ .notFound := by
  rw [problemOf]
  rcases (find ctx r.raw (startOf file)).run d with fault | resolved
  · constructor
    · intro h
      cases h
    · rintro ⟨resolved, h, -⟩
      cases h
  · constructor
    · intro h
      refine ⟨resolved, rfl, ?_⟩
      rintro rfl
      cases h
    · rintro ⟨found, h, hne⟩
      obtain rfl := Except.ok.inj h
      cases resolved with
      | notFound => exact absurd rfl hne
      | _ => rfl

/-- Nothing is wrong with a file that can be read if every reference means something. -/
theorem problemsIn_eq_nil_iff {file : Path} :
    problemsIn d ctx file = [] ↔
      ∃ bytes, d (.readBytes file) = .ok bytes ∧
        ∀ r ∈ references (decodeLossy bytes), ∃ resolved,
          (find ctx r.raw (startOf file)).run d = .ok resolved ∧ resolved ≠ .notFound := by
  rw [problemsIn, referencesIn]
  rcases d (.readBytes file) with fault | bytes
  · constructor
    · intro h
      cases h
    · rintro ⟨bytes, h, -⟩
      cases h
  · have hnil : (references (decodeLossy bytes)).filterMap (problemOf d ctx file) = [] ↔
        ∀ r ∈ references (decodeLossy bytes), ∃ resolved,
          (find ctx r.raw (startOf file)).run d = .ok resolved ∧ resolved ≠ .notFound := by
      rw [List.filterMap_eq_nil_iff]
      exact forall₂_congr fun r _ => problemOf_eq_none_iff
    constructor
    · exact fun h => ⟨bytes, rfl, hnil.1 h⟩
    · rintro ⟨others, h, hall⟩
      obtain rfl := Except.ok.inj h
      exact hnil.2 hall

theorem plainReport_ok_iff {root : Path} {files : List Path} :
    (plainReport d ctx root files).ok = true ↔
      ∀ file ∈ files, ∃ bytes, d (.readBytes file) = .ok bytes ∧
        ∀ r ∈ references (decodeLossy bytes), ∃ resolved,
          (find ctx r.raw (startOf file)).run d = .ok resolved ∧ resolved ≠ .notFound := by
  rw [CheckReport.ok, plainReport, List.isEmpty_iff, List.flatMap_eq_nil_iff]
  exact forall₂_congr fun file _ => problemsIn_eq_nil_iff

end Plain

/-! ## In steps -/

/-- Looks up references from one directory, in steps. -/
def lookUpAllWork (ctx : Context) (start : Path) : List Reference → Work (List LookedUp)
  | [] => return []
  | r :: rs => do
    let result ← lookUp ctx r.raw start
    let rest ← lookUpAllWork ctx start rs
    return ⟨r, result⟩ :: rest

/-- Checks one file, in steps. -/
def checkFileWork (ctx : Context) (file : Path) : Work FileReport := do
  match ← Work.ofProgram (readSource file) with
  | .error fault => return ⟨0, [.unreadable file fault]⟩
  | .ok source =>
    let all ← lookUpAllWork ctx (startOf file) (references source)
    return ⟨(references source).length, all.filterMap (LookedUp.problem? file)⟩

/-- The report on one file. -/
def plainFileReport (d : Disk) (ctx : Context) (file : Path) : FileReport :=
  ⟨(referencesIn d file).length, problemsIn d ctx file⟩

/-- The most steps that references take. -/
def lookUpAllSteps (d : Disk) (ctx : Context) (start : Path) : List Reference → Nat
  | [] => 0
  | r :: rs => lookUpSteps d ctx r.raw start + lookUpAllSteps d ctx start rs

/-- The most steps that a file takes. -/
def checkFileSteps (d : Disk) (ctx : Context) (file : Path) : Nat :=
  1 + lookUpAllSteps d ctx (startOf file) (referencesIn d file)

section Steps

variable {d : Disk} {ctx : Context}

/-- The steps in a row are the lookups that run. -/
theorem run_lookUpAll (start : Path) (rs : List Reference) (c : Cache) :
    (lookUpAll ctx start (some c) rs).run d
      = (((lookUpAllWork ctx start rs).alone d c).1,
          some ((lookUpAllWork ctx start rs).alone d c).2) := by
  induction rs generalizing c with
  | nil => rfl
  | cons r rs ih =>
    rw [lookUpAll, lookUpAllWork, Program.run_bind, run_findCached, Work.alone_bind,
      Work.alone_bind, Program.run_bind]
    dsimp only
    rw [ih]
    rfl

theorem run_readSource (file : Path) :
    (readSource file).run d = (d (.readBytes file)).map decodeLossy :=
  rfl

/-- The steps in a row are the check that runs. -/
theorem run_checkFile (file : Path) (c : Cache) :
    (checkFile ctx (some c) file).run d
      = (((checkFileWork ctx file).alone d c).1, some ((checkFileWork ctx file).alone d c).2) := by
  rw [checkFile, checkFileWork, Program.run_bind, Work.alone_bind, Work.alone_ofProgram]
  rcases (readSource file).run d with fault | source
  · rfl
  · dsimp only
    rw [Program.run_bind, run_lookUpAll, Work.alone_bind]
    rfl

variable {Right : CacheKey → Resolved → Prop}

/-- A result is right for a key when it is what lookups with this key give. -/
theorem gives_lookUpAllWork {start : Path} {rs : List Reference}
    (h : ∀ r ∈ rs, ∀ resolved, Right (CacheKey.of ctx r.raw start) resolved ↔
      (find ctx r.raw start).run d = .ok resolved) :
    Gives d Right (lookUpAllSteps d ctx start rs) (lookUpAllWork ctx start rs)
      (rs.map fun r => ⟨r, (find ctx r.raw start).run d⟩) := by
  induction rs with
  | nil => exact .done 0 _
  | cons r rs ih =>
    have hhead := gives_lookUp (h r List.mem_cons_self)
    have htail := ih fun s hs => h s (List.mem_cons_of_mem r hs)
    rw [lookUpAllWork]
    exact hhead.bind (htail.bind (n := 0) (.done 0 _))

/-- What is wrong with a looked up reference. -/
theorem problem?_eq_problemOf (file : Path) (r : Reference) :
    LookedUp.problem? file ⟨r, (find ctx r.raw (startOf file)).run d⟩
      = problemOf d ctx file r :=
  rfl

theorem plainFileReport_of_readBytes {file : Path} {bytes : List UInt8}
    (h : d (.readBytes file) = .ok bytes) :
    plainFileReport d ctx file
      = ⟨(references (decodeLossy bytes)).length,
          (references (decodeLossy bytes)).filterMap (problemOf d ctx file)⟩ := by
  rw [plainFileReport, problemsIn, referencesIn, h]

theorem gives_checkFileWork (file : Path)
    (h : ∀ spec start resolved, Right (CacheKey.of ctx spec start) resolved ↔
      (find ctx spec start).run d = .ok resolved) :
    Gives d Right (checkFileSteps d ctx file) (checkFileWork ctx file)
      (plainFileReport d ctx file) := by
  have hread : Gives d Right 1 (Work.ofProgram (readSource file)) ((readSource file).run d) :=
    Gives.ofProgram (readSource file)
  rw [checkFileWork, checkFileSteps]
  refine hread.bind ?_
  rw [run_readSource]
  rcases hb : d (.readBytes file) with fault | bytes
  · rw [plainFileReport, referencesIn, problemsIn, hb]
    exact .done _ _
  · have hall : Gives d Right
        (lookUpAllSteps d ctx (startOf file) (references (decodeLossy bytes)))
        (lookUpAllWork ctx (startOf file) (references (decodeLossy bytes)))
        ((references (decodeLossy bytes)).map fun r =>
          ⟨r, (find ctx r.raw (startOf file)).run d⟩) :=
      gives_lookUpAllWork fun r _ => h r.raw (startOf file)
    rw [plainFileReport_of_readBytes hb, referencesIn, hb]
    refine hall.bind (n := 0) ?_
    rw [List.filterMap_map]
    have hproblem : LookedUp.problem? file ∘
        (fun r => ⟨r, (find ctx r.raw (startOf file)).run d⟩) = problemOf d ctx file := by
      funext r
      exact problem?_eq_problemOf file r
    rw [hproblem]
    exact .done _ _

end Steps

/-! ## A whole project -/

/-- A result is right for a key in a context when a lookup with this key has it. -/
def RightIn (d : Disk) (ctx : Context) (k : CacheKey) (resolved : Resolved) : Prop :=
  ∃ spec start, CacheKey.of ctx spec start = k ∧ (find ctx spec start).run d = .ok resolved

/-- All files of a check, around an empty cache. -/
def checkPool (ctx : Context) (files : List Path) : Pool FileReport :=
  .start (files.map (checkFileWork ctx))

section Projects

variable {d : Disk} {ctx : Context}

theorem rightIn_key_iff (spec : String) (start : Path) (resolved : Resolved) :
    RightIn d ctx (CacheKey.of ctx spec start) resolved ↔
      (find ctx spec start).run d = .ok resolved := by
  constructor
  · rintro ⟨other, from_, hkey, hfound⟩
    obtain ⟨hspec, hstart, -⟩ := CacheKey.mk.inj hkey
    rw [← run_find_eq_of_same hstart ctx spec, ← hspec]
    exact hfound
  · exact fun h => ⟨spec, start, rfl, h⟩

theorem ready_checkPool (files : List Path) :
    (checkPool ctx files).Ready d (RightIn d ctx)
      (fun i => files[i]?.elim 0 (checkFileSteps d ctx)) (files.map (plainFileReport d ctx)) :=
  Pool.ready_start fun file _ => gives_checkFileWork file rightIn_key_iff

/-- One file after the other. -/
theorem run_checkFiles {c : Cache} (hc : c.Sound (RightIn d ctx)) (files : List Path) :
    (checkFiles ctx (some c) files).run d = files.map (plainFileReport d ctx) := by
  induction files generalizing c with
  | nil => rfl
  | cons file files ih =>
    -- the next file meets another cache, but a right one
    have hfile := (gives_checkFileWork file rightIn_key_iff).alone hc
    rw [checkFiles, Program.run_bind, run_checkFile, Program.run_bind, ih hfile.2, hfile.1]
    rfl

/-- The references of the files are counted together. -/
theorem countSpecifiers_plainFileReport (files : List Path) :
    countSpecifiers (files.map (plainFileReport d ctx))
      = (files.flatMap (referencesIn d)).length := by
  induction files with
  | nil => rfl
  | cons file files ih =>
    rw [List.map_cons, countSpecifiers, ih, List.flatMap_cons, List.length_append]
    rfl

/-- The plain reports on the files make the plain report. -/
theorem ofFiles_plainFileReport (root : Path) (files : List Path) :
    CheckReport.ofFiles root (files.map (plainFileReport d ctx))
      = plainReport d ctx root files := by
  rw [CheckReport.ofFiles, plainReport, countSpecifiers_plainFileReport, List.length_map,
    List.flatMap_map]
  rfl

/-- A check gives the plain report on the files that it finds. -/
theorem run_check (root : Path) (exts : List String) :
    (check ctx root exts).run d = ((sourceFiles root exts).run d).map (plainReport d ctx root) := by
  rw [check, Program.run_bind]
  rcases (sourceFiles root exts).run d with e | files
  · rfl
  · dsimp only
    rw [Program.run_bind, run_checkFiles Cache.sound_empty, ofFiles_plainFileReport]
    rfl

/-- Files that take turns in any order give the plain report when all are finished. -/
theorem ofFiles_of_works_eq {files : List Path} {turns : List Nat} {reports : List FileReport}
    (h : ((checkPool ctx files).run d turns).works = reports.map .done) (root : Path) :
    CheckReport.ofFiles root reports = plainReport d ctx root files := by
  rw [((ready_checkPool files).run turns).eq_of_works_eq h, ofFiles_plainFileReport]

end Projects

/-- **A check is a list of plain lookups.** The report on a project is made of lookups
without a cache, in the order of the files, whether the files are checked one after the
other or take turns in any order. Nothing is wrong exactly when every file can be read and
every reference in it means something. -/
theorem check_eq_plainReport (d : Disk) (ctx : Context) (root : Path) (exts : List String) :
    (check ctx root exts).run d
        = ((sourceFiles root exts).run d).map (plainReport d ctx root) ∧
      ∀ files, (sourceFiles root exts).run d = .ok files →
        (∀ turns (reports : List FileReport),
            ((checkPool ctx files).run d turns).works = reports.map .done →
          CheckReport.ofFiles root reports = plainReport d ctx root files) ∧
        (∀ turns, (∀ i file, files[i]? = some file →
            checkFileSteps d ctx file ≤ turns.count i) →
          ∃ reports : List FileReport,
            ((checkPool ctx files).run d turns).works = reports.map .done) ∧
        ((plainReport d ctx root files).ok = true ↔
          ∀ file ∈ files, ∃ bytes, d (.readBytes file) = .ok bytes ∧
            ∀ r ∈ references (decodeLossy bytes), ∃ resolved,
              (find ctx r.raw (startOf file)).run d = .ok resolved ∧
                resolved ≠ .notFound) := by
  constructor
  · exact run_check root exts
  · intro files _
    refine ⟨fun turns reports hdone => ofFiles_of_works_eq hdone root, fun turns hturns => ?_,
      plainReport_ok_iff⟩
    refine ⟨_, ((ready_checkPool files).run turns).works_eq fun i hi => ?_⟩
    rw [List.length_map] at hi
    rw [List.getElem?_eq_getElem hi]
    exact Nat.sub_eq_zero_of_le (hturns i files[i] (List.getElem?_eq_getElem hi))

/-- Two files that refer to a module that is not there. -/
def twoFiles : Disk
  | .isFile _ => false
  | .readText _ => .error .notFound
  | .metadata _ => none
  | .present _ => false
  | .readBytes _ => .ok (encode "require('./x')")
  | .outline _ => .ok (.directory [("a.js", .file), ("b.js", .file)])

/-- Both files are reported, though the second lookup can meet the result of the first. -/
theorem check_eq_plainReport_twoFiles :
    ∃ reports : List FileReport,
      ((checkPool (.withDefaults ⟨"/p"⟩) [⟨"/p/a.js"⟩, ⟨"/p/b.js"⟩]).run twoFiles
          (List.replicate 20 [0, 1]).flatten).works = reports.map .done ∧
        CheckReport.ofFiles ⟨"/p"⟩ reports
          = plainReport twoFiles (.withDefaults ⟨"/p"⟩) ⟨"/p"⟩
            [⟨"/p/a.js"⟩, ⟨"/p/b.js"⟩] := by
  have hfiles : (sourceFiles ⟨"/p"⟩ [".js"]).run twoFiles
      = .ok [⟨"/p/a.js"⟩, ⟨"/p/b.js"⟩] := by
    have hfound : (filesIn ⟨"/p"⟩ [("a.js", .file), ("b.js", .file)]).filter
        (·.hasSuffix [".js"]) = [⟨"/p/a.js"⟩, ⟨"/p/b.js"⟩] := by
      decide +kernel
    have hsorted : [(⟨"/p/a.js"⟩ : Path), ⟨"/p/b.js"⟩].mergeSort Path.le
        = [⟨"/p/a.js"⟩, ⟨"/p/b.js"⟩] :=
      List.mergeSort_of_pairwise (by decide +kernel)
    rw [← hsorted, ← hfound]
    rfl
  obtain ⟨hreport, hend, -⟩ :=
    (check_eq_plainReport twoFiles (.withDefaults ⟨"/p"⟩) ⟨"/p"⟩ [".js"]).2 _ hfiles
  have hturns : ∀ i file, [(⟨"/p/a.js"⟩ : Path), ⟨"/p/b.js"⟩][i]? = some file →
      checkFileSteps twoFiles (.withDefaults ⟨"/p"⟩) file
        ≤ (List.replicate 20 [0, 1]).flatten.count i := by
    have hall : ∀ i < 2, ∀ file ∈ [(⟨"/p/a.js"⟩ : Path), ⟨"/p/b.js"⟩][i]?,
        checkFileSteps twoFiles (.withDefaults ⟨"/p"⟩) file
          ≤ (List.replicate 20 [0, 1]).flatten.count i := by
      decide +kernel
    exact fun i file hi => hall i (List.getElem?_eq_some_iff.1 hi).1 file hi
  obtain ⟨reports, hdone⟩ := hend _ hturns
  exact ⟨reports, hdone, hreport _ reports hdone⟩

end ModuleLookup
