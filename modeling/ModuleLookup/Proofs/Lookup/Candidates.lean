import ModuleLookup.Disk.Memory
import ModuleLookup.Lookup.Find
import ModuleLookup.Proofs.Path.Normal

/-!
# The candidates of a lookup

A lookup is written as attempts inside attempts, and each of them may end the whole of
it. Laid out flat it is one list of candidates, read from the front: a path is the
answer when there is a file, and a broken manifest is the answer whatever follows.

* `Candidate.verdict?` — what one candidate says; `firstHit` — the first that says
  anything decides.
* `candidates` — the list for a specifier in a directory. It depends on the disk only
  where a manifest says which file is meant.
* `Attempt.Tries` — an attempt goes through a list of candidates; `Tries.orElse` and
  `Tries.firstOf` put such lists together along the attempts.
* `find_eq_firstHit` — a lookup is the first hit among its candidates.
-/

namespace ModuleLookup

/-! ## Searching a list -/

/-- The two ways to a file. -/
inductive Strategy where
  /-- from the requesting directory outwards -/
  | outward
  /-- in the project's own directories -/
  | aliasRoots
  deriving DecidableEq

/-- The result of a lookup that finds a file this way. -/
def Strategy.resolved : Strategy → Path → Resolved
  | outward => .file
  | aliasRoots => .aliased

/-- One entry of the list that a lookup goes through. -/
inductive Candidate where
  /-- a path, meant if there is a file -/
  | path (s : Strategy) (p : Path)
  /-- a broken manifest in place of the paths it should lead to -/
  | broken (fault : ManifestFault)
  deriving DecidableEq

/-- What a candidate says, if anything. -/
def Candidate.verdict? (d : Disk) : Candidate → Option (Except ManifestFault Resolved)
  | path s p => if d (.isFile p) then some (.ok (s.resolved p)) else none
  | broken fault => some (.error fault)

/-- The first candidate that says anything decides. -/
def firstHit (d : Disk) (cs : List Candidate) : Except ManifestFault Resolved :=
  (cs.findSome? (Candidate.verdict? d)).getD (.ok .notFound)

/-! ## The list -/

/-- The file that the text of a manifest means: its `main`, or `index.js` when that is
missing or no text. -/
def mainOf (text : String) : Except ManifestCause String :=
  match Json.readValue text with
  | .error e => .error (.malformed e)
  | .ok (.object fields) =>
    match (Json.Value.object fields).field? "main" with
    | some (.string main) => .ok main
    | _ => .ok "index.js"
  | .ok _ => .error (.unusable "expected a JSON object")

/-- The file that a manifest means on a disk. -/
def mainAt (d : Disk) (manifest : Path) : Except ManifestFault String :=
  match d (.readText manifest) with
  | .error fault => .error ⟨manifest, .unreadable fault⟩
  | .ok text => (mainOf text).mapError fun cause => ⟨manifest, cause⟩

/-- A path itself, then with each ending. -/
def fileNames (p : Path) (exts : List String) : List Path :=
  p :: exts.map p.withSuffix

/-- The index file of a directory with each ending. -/
def indexNames (dir : Path) (exts : List String) : List Path :=
  exts.map fun ext => dir.join ⟨"index" ++ ext⟩

/-- The candidates behind the file names of a path: with a manifest what it means, and
never an index of the path itself; without one that index. -/
def directoryBlock (d : Disk) (exts : List String) (p : Path) : List Candidate :=
  if d (.isFile (p.join ⟨"package.json"⟩)) then
    match mainAt d (p.join ⟨"package.json"⟩) with
    | .error fault => [.broken fault]
    | .ok main =>
      let m := (p.join ⟨main⟩).normalize
      (fileNames m exts ++ indexNames m exts).map (.path .outward)
  else (indexNames p exts).map (.path .outward)

/-- The candidates for one path: as a file, then as a directory. -/
def block (d : Disk) (exts : List String) (p : Path) : List Candidate :=
  (fileNames p exts).map (.path .outward) ++ directoryBlock d exts p

/-- The candidates from the requesting directory outwards. -/
def outwardCandidates (d : Disk) (ctx : Context) (spec : String) (start : Path) :
    List Candidate :=
  if spec = "" then []
  else
    match SpecifierKind.of spec with
    | .core => []
    | .relative => block d ctx.extensions (start.join ⟨spec⟩).normalize
    | .bare => (searchPath start).flatMap fun dir => block d ctx.extensions (dir.join ⟨spec⟩)

/-- The candidates in one of the project's own directories. -/
def rootNames (base : Path) (exts : List String) : List Path :=
  base :: exts.flatMap fun ext => [base.withSuffix ext, base.join ⟨"index" ++ ext⟩]

/-- The candidates in the project's own directories. -/
def aliasCandidates (ctx : Context) (spec : String) : List Candidate :=
  ctx.aliasRoots.flatMap fun root =>
    (rootNames ((ctx.projectRoot.join ⟨root⟩).join ⟨spec⟩).normalize ctx.aliasExtensions).map
      (.path .aliasRoots)

/-- Everything that a lookup tries, in order. -/
def candidates (d : Disk) (ctx : Context) (spec : String) (start : Path) : List Candidate :=
  outwardCandidates d ctx spec start ++ aliasCandidates ctx spec

/-- What is tried for a path are names of it, or of what its manifest means. -/
theorem exists_base_of_mem_block {d : Disk} {exts : List String} {p q : Path} {s : Strategy}
    (h : .path s q ∈ block d exts p) :
    s = .outward ∧ ∃ m, (m = p ∨ ∃ main : String, m = (p.join ⟨main⟩).normalize) ∧
      q ∈ fileNames m exts ++ indexNames m exts := by
  unfold block directoryBlock at h
  rcases List.mem_append.1 h with h | h
  · obtain ⟨q, hq, ⟨⟩⟩ := List.mem_map.1 h
    exact ⟨rfl, p, .inl rfl, List.mem_append_left _ hq⟩
  · split at h
    · split at h
      · cases List.mem_singleton.1 h
      · next main _ =>
        obtain ⟨q, hq, ⟨⟩⟩ := List.mem_map.1 h
        exact ⟨rfl, _, .inr ⟨main, rfl⟩, hq⟩
    · obtain ⟨q, hq, ⟨⟩⟩ := List.mem_map.1 h
      exact ⟨rfl, p, .inl rfl, List.mem_append_right _ hq⟩

/-! ## Attempts as lists -/

/-- What the end of an attempt says about the lookup, if anything. -/
def Outcome.verdict? (s : Strategy) : Outcome → Option (Except ManifestFault Resolved)
  | missed => none
  | hit p => some (.ok (s.resolved p))
  | broken fault => some (.error fault)

namespace Attempt

variable {d : Disk} {s : Strategy}

/-- An attempt goes through a list of candidates: it ends as the first that says
anything. -/
def Tries (d : Disk) (s : Strategy) (a : Attempt) (cs : List Candidate) : Prop :=
  (a.run d).verdict? s = cs.findSome? (Candidate.verdict? d)

theorem tries_probe (kind : StepKind) (detail : String) (p : Path) :
    Tries d s (probe kind detail p) [.path s p] := by
  by_cases h : d (.isFile p) = true
  · simp [Tries, probe, Program.query, Program.step, Program.run, Outcome.verdict?,
      Candidate.verdict?, h]
  · simp [Tries, probe, Program.query, Program.run, Outcome.verdict?, Candidate.verdict?, h]

theorem tries_giveUp (kind : StepKind) (detail : String) (path : Option Path) :
    Tries d s (giveUp kind detail path) [] :=
  rfl

theorem Tries.orElse {a b : Attempt} {as bs : List Candidate} (ha : Tries d s a as)
    (hb : Tries d s b bs) : Tries d s (a.orElse b) (as ++ bs) := by
  rw [Tries] at ha hb ⊢
  rw [List.findSome?_append, ← ha, ← hb, Attempt.orElse, Program.run_bind]
  cases a.run d <;> rfl

/-- Giving up at the end adds nothing. -/
theorem Tries.orElse_giveUp {a : Attempt} {as : List Candidate} (ha : Tries d s a as)
    (kind : StepKind) (detail : String) (path : Option Path) :
    Tries d s (a.orElse (giveUp kind detail path)) as := by
  have h := ha.orElse (tries_giveUp (d := d) (s := s) kind detail path)
  rwa [List.append_nil] at h

theorem Tries.firstOf {α : Type} {f : α → Attempt} {g : α → List Candidate}
    (h : ∀ x, Tries d s (f x) (g x)) (xs : List α) :
    Tries d s (firstOf (xs.map f)) (xs.flatMap g) := by
  induction xs with
  | nil => rfl
  | cons x xs ih => exact (h x).orElse ih

/-- A row of probes. -/
theorem tries_probes {α : Type} (kind : StepKind) (detail : α → String) (name : α → Path)
    (xs : List α) :
    Tries d s (Attempt.firstOf (xs.map fun x => probe kind (detail x) (name x)))
      ((xs.map name).map (.path s)) := by
  have h := Tries.firstOf (d := d) (s := s) (fun x => tries_probe kind (detail x) (name x)) xs
  rw [← List.map_eq_flatMap] at h
  rw [List.map_map]
  exact h

end Attempt

/-! ## The stages of a lookup as lists -/

open Attempt

section Stages

variable {d : Disk}

theorem run_query (q : Query) : (Program.query q).run d = d q :=
  rfl

theorem tries_asFile (p : Path) (exts : List String) :
    Tries d .outward (asFile p exts) ((fileNames p exts).map (.path .outward)) :=
  ((tries_probe .file "Exact file exists" p).orElse
    (tries_probes .file ("Found with extension: " ++ ·) p.withSuffix exts)).orElse_giveUp ..

theorem tries_asIndex (dir : Path) (exts : List String) :
    Tries d .outward (asIndex dir exts) ((indexNames dir exts).map (.path .outward)) :=
  (tries_probes .index ("Found index" ++ ·) (indexFile dir) exts).orElse_giveUp ..

/-- An entry that is no text counts as a missing one. -/
theorem map_file_entry (text : String) :
    (Manifest.entry text).map Manifest.Entry.file = mainOf text := by
  rw [Manifest.entry, mainOf]
  rcases Json.readValue text with e | v
  · rfl
  · cases v with
    | object fields =>
      dsimp only
      rcases (Json.Value.object fields).field? "main" with _ | v
      · rfl
      · cases v <;> rfl
    | _ => rfl

/-- Reading a manifest gives what it means; the notes on the way do not matter. -/
theorem run_readEntry (manifest : Path) :
    (Manifest.readEntry manifest).run d = mainAt d manifest := by
  have hrun : (Manifest.readEntry manifest).run d
      = (Manifest.entryAt manifest (d (.readText manifest))).map Manifest.Entry.file := by
    rw [Manifest.readEntry, Program.run_bind, run_query]
    rcases Manifest.entryAt manifest (d (.readText manifest)) with fault | e
    · rfl
    · cases e <;> rfl
  rw [hrun, mainAt]
  rcases d (.readText manifest) with fault | text
  · rfl
  · have he := map_file_entry text
    rw [Manifest.entryAt]
    dsimp only
    rw [← he]
    rcases Manifest.entry text with cause | e <;> rfl

theorem tries_asDirectory (dir : Path) (exts : List String) :
    Tries d .outward (asDirectory dir exts) (directoryBlock d exts dir) := by
  have hm : Manifest.ofDirectory dir = dir.join ⟨"package.json"⟩ := rfl
  rw [asDirectory, directoryBlock, Tries, hm, Program.run_bind, run_query]
  split
  · -- with a manifest: either it is broken, or its entry takes the place of the directory
    rw [Program.run_bind, run_readEntry]
    rcases mainAt d (dir.join ⟨"package.json"⟩) with fault | main
    · rfl
    · have h := ((tries_asFile (d := d) (dir.join ⟨main⟩).normalize exts).orElse
        (tries_asIndex (dir.join ⟨main⟩).normalize exts)).orElse_giveUp .directory
          ("Manifest entry not found: " ++ main) (some (dir.join ⟨main⟩).normalize)
      rw [← List.map_append] at h
      exact h
  · exact tries_asIndex dir exts

theorem tries_asEither (p : Path) (exts : List String) :
    Tries d .outward (asEither p exts) (block d exts p) :=
  (tries_asFile p exts).orElse (tries_asDirectory p exts)

theorem tries_inPackages (spec : String) (start : Path) (exts : List String) :
    Tries d .outward (inPackages spec start exts)
      ((searchPath start).flatMap fun dir => block d exts (dir.join ⟨spec⟩)) := by
  have h := Tries.firstOf (d := d) (s := .outward) (f := inDirectory spec exts)
    (fun dir => (tries_asEither (dir.join ⟨spec⟩) exts).orElse_giveUp ..) (searchPath start)
  -- the notes before the search ask nothing and decide nothing
  have hrun : (inPackages spec start exts).run d
      = (firstOf ((searchPath start).map (inDirectory spec exts))).run d := by
    rw [inPackages, Program.run_bind]
    by_cases hi : isInsidePackages start = true
    · rw [if_pos hi, Program.run_bind]
    · rw [if_neg hi]
  rw [Tries] at h ⊢
  rw [hrun, h]

theorem tries_underRoot (spec : String) (projectRoot : Path) (exts : List String)
    (root : String) :
    Tries d .aliasRoots (underRoot spec projectRoot exts root)
      ((rootNames ((projectRoot.join ⟨root⟩).join ⟨spec⟩).normalize exts).map
        (.path .aliasRoots)) := by
  have h := (tries_probe (d := d) (s := .aliasRoots) .aliasRoots
    ("Found under alias root: " ++ root)
    ((projectRoot.join ⟨root⟩).join ⟨spec⟩).normalize).orElse
    (Tries.firstOf (fun ext => (tries_probe .aliasRoots ("Found under alias root: " ++ root)
      (((projectRoot.join ⟨root⟩).join ⟨spec⟩).normalize.withSuffix ext)).orElse
        (tries_probe .aliasRoots ("Found under alias root: " ++ root)
          (indexFile ((projectRoot.join ⟨root⟩).join ⟨spec⟩).normalize ext))) exts)
  rw [rootNames, List.map_cons, List.map_flatMap]
  exact h

theorem tries_underRoots (spec : String) (projectRoot : Path) (roots exts : List String) :
    Tries d .aliasRoots (underAliases spec projectRoot roots exts)
      (roots.flatMap fun root =>
        (rootNames ((projectRoot.join ⟨root⟩).join ⟨spec⟩).normalize exts).map
          (.path .aliasRoots)) :=
  (Tries.firstOf (tries_underRoot spec projectRoot exts) roots).orElse_giveUp ..

theorem tries_underAliases (ctx : Context) (spec : String) :
    Tries d .aliasRoots
      (underAliases spec ctx.projectRoot ctx.aliasRoots ctx.aliasExtensions)
      (aliasCandidates ctx spec) :=
  tries_underRoots spec ctx.projectRoot ctx.aliasRoots ctx.aliasExtensions

end Stages

/-! ## Whole lookups -/

section Lookups

variable {d : Disk}

theorem firstHit_append_of_none {cs : List Candidate} (ds : List Candidate)
    (h : cs.findSome? (Candidate.verdict? d) = none) :
    firstHit d (cs ++ ds) = firstHit d ds := by
  rw [firstHit, List.findSome?_append, h, Option.none_or, firstHit]

theorem firstHit_append_of_some {cs : List Candidate} (ds : List Candidate)
    {v : Except ManifestFault Resolved}
    (h : cs.findSome? (Candidate.verdict? d) = some v) : firstHit d (cs ++ ds) = v := by
  rw [firstHit, List.findSome?_append, h, Option.some_or, Option.getD_some]

/-- A candidate finds nothing but its own path. -/
theorem verdict?_eq_ok_iff {c : Candidate} {r : Resolved} :
    c.verdict? d = some (.ok r) ↔
      ∃ s q, c = .path s q ∧ d (.isFile q) = true ∧ s.resolved q = r := by
  constructor
  · intro h
    cases c with
    | broken fault => cases h
    | path s q =>
      rw [Candidate.verdict?] at h
      split at h
      · next hq =>
        cases h
        exact ⟨s, q, rfl, hq, rfl⟩
      · cases h
  · rintro ⟨s, q, rfl, hq, rfl⟩
    rw [Candidate.verdict?, if_pos hq]

/-- A candidate says that there is a file or that a manifest is broken. -/
theorem cases_of_findSome? {cs : List Candidate} {v : Except ManifestFault Resolved}
    (h : cs.findSome? (Candidate.verdict? d) = some v) :
    (∃ s p, v = .ok (Strategy.resolved s p)) ∨ ∃ fault, v = .error fault := by
  obtain ⟨c, -, hc⟩ := List.exists_of_findSome?_eq_some h
  cases c with
  | path s p =>
    rw [Candidate.verdict?] at hc
    split at hc
    · cases hc
      exact .inl ⟨s, p, rfl⟩
    · cases hc
  | broken fault =>
    cases hc
    exact .inr ⟨fault, rfl⟩

/-- No candidate says that nothing was found. -/
theorem ne_notFound_of_findSome? {cs : List Candidate} {v : Except ManifestFault Resolved}
    (h : cs.findSome? (Candidate.verdict? d) = some v) : v ≠ .ok .notFound := by
  rcases cases_of_findSome? h with ⟨s, p, rfl⟩ | ⟨fault, rfl⟩
  · cases s <;> exact fun hv => by cases hv
  · exact fun hv => by cases hv

/-- The end of a lookup is the first hit among what its attempt tries. -/
theorem run_conclude {s : Strategy} {a : Attempt} {cs : List Candidate}
    (h : Tries d s a cs) : (conclude s.resolved a).run d = firstHit d cs := by
  rw [firstHit, ← h, conclude, Program.run_bind]
  cases a.run d <;> rfl

theorem kind_eq_core_iff {spec : String} :
    SpecifierKind.of spec = .core ↔ isCore spec = true := by
  rw [SpecifierKind.of]
  split
  · next h => exact ⟨fun _ => h, fun _ => rfl⟩
  · next h =>
    refine ⟨fun hk => ?_, fun hc => absurd hc h⟩
    split at hk <;> cases hk

theorem ne_empty_of_isCore {spec : String} (h : isCore spec = true) : spec ≠ "" := by
  rintro rfl
  cases h

/-- A module of the runtime is not looked for. -/
theorem find_of_isCore (ctx : Context) {spec : String} (start : Path)
    (h : isCore spec = true) :
    (find ctx spec start).run d = .ok (.core spec) ∧ (find ctx spec start).asked d = [] := by
  rw [find, resolve, if_neg (ne_empty_of_isCore h), kind_eq_core_iff.2 h]
  exact ⟨rfl, rfl⟩

/-- The search from the requesting directory outwards. -/
theorem run_resolve (ctx : Context) {spec : String} (start : Path)
    (h : isCore spec = false) :
    (resolve ctx spec start).run d = firstHit d (outwardCandidates d ctx spec start) := by
  rw [resolve, outwardCandidates]
  by_cases hs : spec = ""
  · subst hs
    rfl
  · rw [if_neg hs, if_neg hs, Program.run_bind]
    cases hk : SpecifierKind.of spec with
    | core =>
      rw [kind_eq_core_iff.1 hk] at h
      cases h
    | relative => exact run_conclude (s := .outward) (tries_asEither _ ctx.extensions)
    | bare => exact run_conclude (s := .outward) (tries_inPackages spec start ctx.extensions)

/-- What the outward search does not decide is looked for in the project's own
directories; without any there are no candidates either. -/
theorem run_find (ctx : Context) (spec : String) (start : Path) :
    (find ctx spec start).run d
      = match (resolve ctx spec start).run d with
        | .ok .notFound => firstHit d (aliasCandidates ctx spec)
        | decided => decided := by
  rw [find, Program.run_bind]
  rcases (resolve ctx spec start).run d with fault | resolved
  · rfl
  · cases resolved with
    | notFound =>
      by_cases ha : ctx.hasAliases = true
      · simp only [ha, if_true]
        exact run_conclude (s := .aliasRoots) (tries_underAliases ctx spec)
      · have hr : ctx.aliasRoots = [] := by simpa [Context.hasAliases] using ha
        simp only [ha, aliasCandidates, hr]
        rfl
    | _ => rfl

/-- Any other specifier means the first hit among its candidates. -/
theorem run_find_of_not_isCore (ctx : Context) {spec : String} (start : Path)
    (h : isCore spec = false) :
    (find ctx spec start).run d = firstHit d (candidates d ctx spec start) := by
  rw [run_find, run_resolve ctx start h, candidates]
  rcases hv : (outwardCandidates d ctx spec start).findSome? (Candidate.verdict? d) with _ | v
  · rw [firstHit_append_of_none _ hv, firstHit, hv]
    rfl
  · rw [firstHit_append_of_some _ hv, firstHit, hv, Option.getD_some]
    have hne := ne_notFound_of_findSome? hv
    split
    · exact absurd rfl hne
    · rfl

/-- A file that is found was tried, and is there. -/
theorem exists_candidate_of_find {ctx : Context} {spec : String} {start p : Path} {r : Resolved}
    (h : (find ctx spec start).run d = .ok r) (hp : r.path? = some p) :
    isCore spec = false ∧
      ∃ s, .path s p ∈ candidates d ctx spec start ∧ d (.isFile p) = true ∧ s.resolved p = r := by
  cases hcore : isCore spec with
  | true =>
    rw [(find_of_isCore ctx start hcore).1] at h
    cases h
    cases hp
  | false =>
    rw [run_find_of_not_isCore ctx start hcore, firstHit] at h
    rcases hv : (candidates d ctx spec start).findSome? (Candidate.verdict? d) with _ | v
    · rw [hv] at h
      cases h
      cases hp
    · rw [hv, Option.getD_some] at h
      subst h
      obtain ⟨c, hc, hverdict⟩ := List.exists_of_findSome?_eq_some hv
      obtain ⟨s, q, rfl, hq, rfl⟩ := verdict?_eq_ok_iff.1 hverdict
      have hpq : q = p := by cases s <;> exact Option.some.inj hp
      subst hpq
      exact ⟨rfl, s, hc, hq, rfl⟩

/-- A result can be told by its value. -/
theorem eq_ok_of_toOption_eq {ε α : Type} {x : Except ε α} {a : α} (h : x.toOption = some a) :
    x = .ok a := by
  cases x with
  | error e => cases h
  | ok b => exact congrArg Except.ok (Option.some.inj h)

/-- Directories with one normal form look for packages in the same places. -/
theorem searchPath_congr {p q : Path} (h : p.normalComponents = q.normalComponents) :
    searchPath p = searchPath q := by
  rw [searchPath, searchPath, Path.split, Path.split, Path.normalize_congr h]

/-- The candidates depend on the normal form of the requesting directory. -/
theorem candidates_congr {p q : Path} (h : p.normalComponents = q.normalComponents)
    (ctx : Context) (spec : String) : candidates d ctx spec p = candidates d ctx spec q := by
  rw [candidates, candidates, outwardCandidates, outwardCandidates,
    Path.normalize_congr (Path.normalComponents_join_congr h ⟨spec⟩), searchPath_congr h]

/-- A lookup gives the same, down to the text of a path, from all directories with one normal
form. -/
theorem run_find_congr {p q : Path} (h : p.normalComponents = q.normalComponents)
    (ctx : Context) (spec : String) : (find ctx spec p).run d = (find ctx spec q).run d := by
  cases hc : isCore spec with
  | true => rw [(find_of_isCore ctx p hc).1, (find_of_isCore ctx q hc).1]
  | false =>
    rw [run_find_of_not_isCore ctx p hc, run_find_of_not_isCore ctx q hc, candidates_congr h]

/-- A lookup gives the same however the requesting directory is spelled. -/
theorem run_find_eq_of_same {p q : Path} (h : p.Same q) (ctx : Context) (spec : String) :
    (find ctx spec p).run d = (find ctx spec q).run d :=
  run_find_congr h.normalComponents_eq ctx spec

end Lookups

/-- **A lookup is a flat search**: the first hit among its candidates, unless the
specifier names a module of the runtime, which is not looked for at all. -/
theorem find_eq_firstHit (d : Disk) (ctx : Context) (spec : String) (start : Path) :
    (find ctx spec start).run d
        = (if isCore spec then .ok (.core spec)
          else firstHit d (candidates d ctx spec start)) ∧
      (isCore spec = true → (find ctx spec start).asked d = []) := by
  cases hc : isCore spec with
  | true => exact ⟨(find_of_isCore ctx start hc).1, fun _ => (find_of_isCore ctx start hc).2⟩
  | false => exact ⟨run_find_of_not_isCore ctx start hc, fun h => absurd h Bool.false_ne_true⟩

/-- `fs` belongs to the runtime: nothing is asked. -/
theorem find_eq_firstHit_fs :
    isCore "fs" = true ∧
      (find (Context.withDefaults ⟨"/p"⟩) "fs" ⟨"/p"⟩).asked Memory.empty.disk = [] :=
  ⟨by decide, (find_eq_firstHit _ _ _ _).2 (by decide)⟩

end ModuleLookup
