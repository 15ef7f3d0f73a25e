import ModuleLookup.Cache.Basic
import ModuleLookup.Proofs.Lookup.Spelling

/-!
# Lookups that end at a broken manifest

A lookup goes through its paths in order, and only a broken manifest keeps it from going on. Here
the exchanges of such a lookup are spelled out: whatever came before has missed, and the text of
the broken manifest is the last thing that was asked for.

* `basesOf` — the paths that a lookup goes through, each as a file and then as a directory;
  `outwardCandidates_eq_flatMap` — its candidates stand at these paths.
* `MissedAt`, `Aborted` — the exchanges at a path where nothing is found, and those of a search
  that a broken manifest ends.
* `Attempt.Unbreakable` — an attempt that reads no manifest meets no broken one.
* `ends_asEither_missed_iff`, `ends_asEither_broken_iff` — what is exchanged at one path;
  `ends_firstOf_broken_iff` — what is exchanged over a row of paths, by induction on the row.
* `ends_resolve_error_iff`, `ends_find_error_iff`, `ends_findCached_error_iff` — a lookup ends
  with an error after just these exchanges.
-/

namespace ModuleLookup

/-! ## What is exchanged -/

/-- There is none of these files. -/
def absent (ps : List Path) : List Exchange :=
  ps.map fun p => ⟨.isFile p, false⟩

/-- The manifest of a directory is there, and this came of reading it. -/
def readManifest (dir : Path) (text : Except IoFault String) : List Exchange :=
  [⟨.isFile (Manifest.ofDirectory dir), true⟩, ⟨.readText (Manifest.ofDirectory dir), text⟩]

/-- How a manifest is broken, from what came of reading it. -/
inductive BrokenAs : Except IoFault String → ManifestCause → Prop where
  /-- it cannot be read -/
  | unreadable (fault : IoFault) : BrokenAs (.error fault) (.unreadable fault)
  /-- it is no JSON text -/
  | malformed {text : String} {e : Json.Error} (h : Json.readValue text = .error e) :
      BrokenAs (.ok text) (.malformed e)
  /-- it is the JSON text of something else than an object -/
  | unusable {text : String} {v : Json.Value} (h : Json.readValue text = .ok v)
      (hv : ∀ fields, v ≠ .object fields) :
      BrokenAs (.ok text) (.unusable "expected a JSON object")

/-- Nothing was found at a path, neither as a file nor as a directory. -/
inductive MissedAt (exts : List String) (p : Path) : List Exchange → Prop where
  /-- there is no manifest -/
  | index : MissedAt exts p
      (absent (fileNames p exts ++ Manifest.ofDirectory p :: indexNames p exts))
  /-- there is one, and nothing is found where it leads -/
  | entry {text main : String} (h : mainOf text = .ok main) : MissedAt exts p
      (absent (fileNames p exts) ++ readManifest p (.ok text) ++
        absent (fileNames (p.join ⟨main⟩).normalize exts
          ++ indexNames (p.join ⟨main⟩).normalize exts))

/-- A search over paths ended at a broken manifest. The paths behind it were not looked at. -/
inductive Aborted (exts : List String) : List Path → List Exchange → ManifestFault → Prop where
  /-- the manifest of the first path is broken -/
  | here {p : Path} {farther : List Path} {text : Except IoFault String} {cause : ManifestCause}
      (h : BrokenAs text cause) : Aborted exts (p :: farther)
        (absent (fileNames p exts) ++ readManifest p text) ⟨Manifest.ofDirectory p, cause⟩
  /-- nothing was found at the first path, and the search over the others ended so -/
  | later {p : Path} {farther : List Path} {es fs : List Exchange} {fault : ManifestFault}
      (hmissed : MissedAt exts p es) (h : Aborted exts farther fs fault) :
      Aborted exts (p :: farther) (es ++ fs) fault

/-- The paths that a lookup goes through from the requesting directory outwards. -/
def basesOf (spec : String) (start : Path) : List Path :=
  if spec = "" then []
  else
    match SpecifierKind.of spec with
    | .core => []
    | .relative => [(start.join ⟨spec⟩).normalize]
    | .bare => (searchPath start).map fun dir => dir.join ⟨spec⟩

/-- The candidates of a lookup stand at these paths. -/
theorem outwardCandidates_eq_flatMap (d : Disk) (ctx : Context) (spec : String) (start : Path) :
    outwardCandidates d ctx spec start
      = (basesOf spec start).flatMap (block d ctx.extensions) := by
  rw [outwardCandidates, basesOf]
  split
  · rfl
  · cases SpecifierKind.of spec with
    | core => rfl
    | relative => exact (List.flatMap_singleton ..).symm
    | bare => exact (List.flatMap_map ..).symm

theorem absent_append (ps qs : List Path) : absent (ps ++ qs) = absent ps ++ absent qs :=
  List.map_append

/-- An aborted search met the broken manifest of one of its paths, and asked nothing after it. -/
theorem Aborted.exists_last {exts : List String} {ps : List Path} {es : List Exchange}
    {fault : ManifestFault} (h : Aborted exts ps es fault) :
    ∃ p ∈ ps, fault.path = Manifest.ofDirectory p ∧ ∃ before text,
      es = before ++ readManifest p text ∧ BrokenAs text fault.cause := by
  induction h with
  | here h => exact ⟨_, List.mem_cons_self, rfl, _, _, rfl, h⟩
  | @later p farther es fs fault hmissed _ ih =>
    obtain ⟨q, hq, hpath, before, text, rfl, hbroken⟩ := ih
    exact ⟨q, List.mem_cons_of_mem p hq, hpath, es ++ before, text,
      (List.append_assoc ..).symm, hbroken⟩

/-! ## Attempts -/

namespace Attempt

variable {es : List Exchange} {a b : Attempt}

theorem silent_probe (kind : StepKind) (detail : String) (p : Path) :
    (probe kind detail p).silent = Program.ask (.isFile p) fun there =>
      .done (if there then .hit p else .missed) :=
  congrArg (Program.ask _) (funext fun there => by cases there <;> rfl)

theorem ends_probe_iff {kind : StepKind} {detail : String} {p : Path} {o : Outcome} :
    (probe kind detail p).Ends es o ↔
      ∃ there, es = [⟨.isFile p, there⟩] ∧ o = if there then .hit p else .missed := by
  rw [← Program.ends_silent_iff, silent_probe, Program.ends_ask_done_iff]

theorem ends_giveUp_iff {kind : StepKind} {detail : String} {path : Option Path} {o : Outcome} :
    (giveUp kind detail path).Ends es o ↔ es = [] ∧ o = .missed :=
  Program.ends_note_iff.trans Program.ends_done_iff

theorem ends_orElse_iff {o : Outcome} :
    (a.orElse b).Ends es o ↔
      (∃ before after, es = before ++ after ∧ a.Ends before .missed ∧ b.Ends after o) ∨
        (o ≠ .missed ∧ a.Ends es o) := by
  rw [orElse, Program.ends_bind_iff]
  constructor
  · rintro ⟨first, before, after, rfl, ha, hend⟩
    cases first with
    | missed => exact .inl ⟨before, after, rfl, ha, hend⟩
    | _ =>
      obtain ⟨rfl, rfl⟩ := Program.ends_done_iff.1 hend
      rw [List.append_nil]
      exact .inr ⟨Outcome.noConfusion, ha⟩
  · rintro (⟨before, after, rfl, ha, hb⟩ | ⟨hne, ha⟩)
    · exact ⟨.missed, before, after, rfl, ha, hb⟩
    · refine ⟨o, es, [], (List.append_nil es).symm, ha, ?_⟩
      cases o with
      | missed => exact absurd rfl hne
      | _ => exact .done _

/-- Two attempts miss when both do. -/
theorem ends_orElse_missed_iff :
    (a.orElse b).Ends es .missed ↔
      ∃ before after, es = before ++ after ∧ a.Ends before .missed ∧ b.Ends after .missed := by
  rw [ends_orElse_iff]
  exact ⟨fun h => h.resolve_right fun h => h.1 rfl, .inl⟩

/-- Giving up at the end exchanges nothing. -/
theorem ends_orElse_giveUp_iff {kind : StepKind} {detail : String} {path : Option Path}
    {o : Outcome} : (a.orElse (giveUp kind detail path)).Ends es o ↔ a.Ends es o := by
  rw [ends_orElse_iff]
  constructor
  · rintro (⟨before, after, rfl, ha, hb⟩ | ⟨-, ha⟩)
    · obtain ⟨rfl, rfl⟩ := ends_giveUp_iff.1 hb
      rwa [List.append_nil]
    · exact ha
  · intro ha
    cases o with
    | missed => exact .inl ⟨es, [], (List.append_nil es).symm, ha, ends_giveUp_iff.2 ⟨rfl, rfl⟩⟩
    | _ => exact .inr ⟨Outcome.noConfusion, ha⟩

theorem ends_probe_missed_iff {kind : StepKind} {detail : String} {p : Path} :
    (probe kind detail p).Ends es .missed ↔ es = absent [p] := by
  rw [ends_probe_iff]
  constructor
  · rintro ⟨there, rfl, h⟩
    cases there with
    | true => cases h
    | false => rfl
  · rintro rfl
    exact ⟨false, rfl, rfl⟩

/-- A row of probes misses when there is none of the files. -/
theorem ends_probes_missed_iff {α : Type} {kind : StepKind} {detail : α → String}
    {name : α → Path} {xs : List α} :
    (firstOf (xs.map fun x => probe kind (detail x) (name x))).Ends es .missed ↔
      es = absent (xs.map name) := by
  induction xs generalizing es with
  | nil => exact Program.ends_done_iff.trans (and_iff_left rfl)
  | cons x xs ih =>
    rw [List.map_cons, firstOf, ends_orElse_missed_iff, List.map_cons, ← List.singleton_append,
      absent_append]
    constructor
    · rintro ⟨before, after, rfl, hx, hxs⟩
      rw [ends_probe_missed_iff.1 hx, ih.1 hxs]
    · rintro rfl
      exact ⟨_, _, rfl, ends_probe_missed_iff.2 rfl, ih.2 rfl⟩

theorem ends_firstOf_congr {α : Type} {f g : α → Attempt}
    (h : ∀ x es o, (f x).Ends es o ↔ (g x).Ends es o) {xs : List α} {o : Outcome} :
    (firstOf (xs.map f)).Ends es o ↔ (firstOf (xs.map g)).Ends es o := by
  induction xs generalizing es with
  | nil => rfl
  | cons x xs ih =>
    rw [List.map_cons, List.map_cons, firstOf, firstOf, ends_orElse_iff, ends_orElse_iff]
    exact or_congr (exists_congr fun before => exists_congr fun after => and_congr_right fun _ =>
      and_congr (h x before _) ih) (and_congr_right fun _ => h x es o)

/-- An attempt that never meets a broken manifest. -/
def Unbreakable (a : Attempt) : Prop :=
  ∀ es fault, ¬a.Ends es (.broken fault)

theorem unbreakable_probe (kind : StepKind) (detail : String) (p : Path) :
    (probe kind detail p).Unbreakable := by
  intro es fault h
  obtain ⟨there, -, h⟩ := ends_probe_iff.1 h
  cases there <;> cases h

theorem unbreakable_giveUp (kind : StepKind) (detail : String) (path : Option Path) :
    (giveUp kind detail path).Unbreakable := by
  intro es fault h
  cases (ends_giveUp_iff.1 h).2

theorem Unbreakable.orElse (ha : a.Unbreakable) (hb : b.Unbreakable) :
    (a.orElse b).Unbreakable := by
  intro es fault h
  obtain ⟨before, after, -, -, h⟩ | ⟨-, h⟩ := ends_orElse_iff.1 h
  · exact hb after fault h
  · exact ha es fault h

theorem unbreakable_firstOf {α : Type} {f : α → Attempt} (h : ∀ x, (f x).Unbreakable)
    (xs : List α) : (firstOf (xs.map f)).Unbreakable := by
  induction xs with
  | nil =>
    intro es fault h
    cases (Program.ends_done_iff.1 h).2
  | cons x xs ih => exact (h x).orElse ih

/-- What an attempt cannot break the one after it must have broken. -/
theorem Unbreakable.ends_orElse_broken_iff (ha : a.Unbreakable) {fault : ManifestFault} :
    (a.orElse b).Ends es (.broken fault) ↔
      ∃ before after, es = before ++ after ∧ a.Ends before .missed ∧
        b.Ends after (.broken fault) := by
  rw [ends_orElse_iff]
  exact ⟨fun h => h.resolve_right fun h => ha es fault h.2, .inl⟩

end Attempt

/-! ## The stages of a lookup -/

section Stages

open Attempt

variable {es : List Exchange} {p : Path} {exts : List String}

theorem ends_asFile_missed_iff :
    (asFile p exts).Ends es .missed ↔ es = absent (fileNames p exts) := by
  rw [asFile, ends_orElse_giveUp_iff, ends_orElse_missed_iff, fileNames,
    ← List.singleton_append, absent_append]
  constructor
  · rintro ⟨before, after, rfl, hself, hexts⟩
    rw [ends_probe_missed_iff.1 hself, ends_probes_missed_iff.1 hexts]
  · rintro rfl
    exact ⟨_, _, rfl, ends_probe_missed_iff.2 rfl, ends_probes_missed_iff.2 rfl⟩

theorem ends_asIndex_missed_iff :
    (asIndex p exts).Ends es .missed ↔ es = absent (indexNames p exts) := by
  rw [asIndex, ends_orElse_giveUp_iff]
  exact ends_probes_missed_iff

theorem unbreakable_asFile (p : Path) (exts : List String) : (asFile p exts).Unbreakable :=
  ((unbreakable_probe _ _ _).orElse
    (unbreakable_firstOf (fun _ => unbreakable_probe _ _ _) exts)).orElse
      (unbreakable_giveUp _ _ _)

theorem unbreakable_asIndex (p : Path) (exts : List String) : (asIndex p exts).Unbreakable :=
  (unbreakable_firstOf (fun _ => unbreakable_probe _ _ _) exts).orElse (unbreakable_giveUp _ _ _)

theorem unbreakable_underAliases (spec : String) (projectRoot : Path) (roots exts : List String) :
    (underAliases spec projectRoot roots exts).Unbreakable := by
  have hroot (root : String) : (underRoot spec projectRoot exts root).Unbreakable :=
    (unbreakable_probe _ _ _).orElse (unbreakable_firstOf
      (fun _ => (unbreakable_probe _ _ _).orElse (unbreakable_probe _ _ _)) exts)
  exact (unbreakable_firstOf hroot roots).orElse (unbreakable_giveUp _ _ _)

/-- What the text of a manifest says is an error just when the manifest is broken. -/
theorem entry_eq_error_iff {text : String} {cause : ManifestCause} :
    Manifest.entry text = .error cause ↔ BrokenAs (.ok text) cause := by
  rw [Manifest.entry]
  constructor
  · intro h
    rcases hv : Json.readValue text with e | v
    · rw [hv] at h
      cases h
      exact .malformed hv
    · rw [hv] at h
      cases v with
      | object fields =>
        dsimp only at h
        split at h <;> cases h
      | _ =>
        cases h
        exact .unusable hv fun _ => Json.Value.noConfusion
  · intro h
    cases h with
    | malformed h => rw [h]
    | @unusable text v h hv =>
      rw [h]
      cases v with
      | object fields => exact absurd rfl (hv fields)
      | _ => rfl

/-- Faults are put down to the manifest that is broken. -/
theorem entryAt_eq_error_iff {manifest : Path} {text : Except IoFault String}
    {fault : ManifestFault} :
    Manifest.entryAt manifest text = .error fault ↔
      fault.path = manifest ∧ BrokenAs text fault.cause := by
  obtain ⟨path, cause⟩ := fault
  rcases text with io | text
  · rw [Manifest.entryAt]
    constructor
    · rintro ⟨⟩
      exact ⟨rfl, .unreadable io⟩
    · rintro ⟨rfl, ⟨⟩⟩
      rfl
  · rw [Manifest.entryAt, ← entry_eq_error_iff]
    rcases Manifest.entry text with other | e
    · constructor
      · rintro ⟨⟩
        exact ⟨rfl, rfl⟩
      · rintro ⟨rfl, ⟨⟩⟩
        rfl
    · constructor
      · rintro ⟨⟩
      · rintro ⟨-, ⟨⟩⟩

theorem silent_readEntry (manifest : Path) :
    (Manifest.readEntry manifest).silent = Program.ask (.readText manifest) fun text =>
      .done ((Manifest.entryAt manifest text).map Manifest.Entry.file) := by
  refine congrArg (Program.ask _) (funext fun text => ?_)
  dsimp only [Program.bind]
  rcases Manifest.entryAt manifest text with fault | e
  · rfl
  · cases e <;> rfl

theorem ends_readEntry_iff {manifest : Path} {r : Except ManifestFault String} :
    (Manifest.readEntry manifest).Ends es r ↔ ∃ text, es = [⟨.readText manifest, text⟩] ∧
      r = (Manifest.entryAt manifest text).map Manifest.Entry.file := by
  rw [← Program.ends_silent_iff, silent_readEntry, Program.ends_ask_done_iff]

/-- What is tried of a directory after its manifest was read. -/
def asEntry (dir : Path) (exts : List String) : Except ManifestFault String → Attempt
  | .error fault => .done (.broken fault)
  | .ok entry =>
    ((asFile (dir.join ⟨entry⟩).normalize exts).orElse
      (asIndex (dir.join ⟨entry⟩).normalize exts)).orElse
      (giveUp .directory ("Manifest entry not found: " ++ entry)
        (some (dir.join ⟨entry⟩).normalize))

theorem ends_asEntry_missed_iff {r : Except ManifestFault String} :
    (asEntry p exts r).Ends es .missed ↔ ∃ main, r = .ok main ∧
      es = absent (fileNames (p.join ⟨main⟩).normalize exts
        ++ indexNames (p.join ⟨main⟩).normalize exts) := by
  rcases r with fault | main
  · constructor
    · intro h
      cases (Program.ends_done_iff.1 h).2
    · rintro ⟨main, ⟨⟩, -⟩
  · rw [asEntry, ends_orElse_giveUp_iff, ends_orElse_missed_iff]
    constructor
    · rintro ⟨before, after, rfl, hfile, hindex⟩
      rw [ends_asFile_missed_iff.1 hfile, ends_asIndex_missed_iff.1 hindex, ← absent_append]
      exact ⟨main, rfl, rfl⟩
    · rintro ⟨main, ⟨⟩, rfl⟩
      exact ⟨_, _, absent_append .., ends_asFile_missed_iff.2 rfl, ends_asIndex_missed_iff.2 rfl⟩

theorem ends_asEntry_broken_iff {r : Except ManifestFault String} {fault : ManifestFault} :
    (asEntry p exts r).Ends es (.broken fault) ↔ es = [] ∧ r = .error fault := by
  rcases r with other | main
  · refine Program.ends_done_iff.trans (and_congr_right fun _ => ?_)
    exact ⟨fun h => congrArg Except.error (Outcome.broken.inj h).symm,
      fun h => congrArg Outcome.broken (Except.error.inj h).symm⟩
  · have hmain : (asEntry p exts (.ok main)).Unbreakable :=
      ((unbreakable_asFile _ exts).orElse (unbreakable_asIndex _ exts)).orElse
        (unbreakable_giveUp _ _ _)
    constructor
    · intro h
      exact absurd h (hmain es fault)
    · rintro ⟨-, ⟨⟩⟩

theorem asDirectory_eq (dir : Path) (exts : List String) :
    asDirectory dir exts = Program.query (.isFile (Manifest.ofDirectory dir)) >>= fun there =>
      if there then Manifest.readEntry (Manifest.ofDirectory dir) >>= asEntry dir exts
      else asIndex dir exts := by
  refine congrArg (Program.ask _) (funext fun there => ?_)
  cases there with
  | false => rfl
  | true =>
    refine congrArg (Manifest.readEntry (Manifest.ofDirectory dir) >>= ·) (funext fun r => ?_)
    cases r <;> rfl

/-- A directory has no manifest, and its index is tried, or its manifest is read. -/
theorem ends_asDirectory_iff {o : Outcome} :
    (asDirectory p exts).Ends es o ↔
      (∃ rest, es = absent [Manifest.ofDirectory p] ++ rest ∧ (asIndex p exts).Ends rest o) ∨
        ∃ text rest, es = readManifest p text ++ rest ∧
          (asEntry p exts ((Manifest.entryAt (Manifest.ofDirectory p) text).map
            Manifest.Entry.file)).Ends rest o := by
  rw [asDirectory_eq, Program.ends_bind_iff]
  constructor
  · rintro ⟨there, before, rest, rfl, hasked, h⟩
    obtain rfl := Program.ends_query_iff.1 hasked
    cases there with
    | false => exact .inl ⟨rest, rfl, h⟩
    | true =>
      obtain ⟨r, read, rest, rfl, hread, h⟩ := Program.ends_bind_iff.1 h
      obtain ⟨text, rfl, rfl⟩ := ends_readEntry_iff.1 hread
      exact .inr ⟨text, rest, rfl, h⟩
  · rintro (⟨rest, rfl, h⟩ | ⟨text, rest, rfl, h⟩)
    · exact ⟨false, _, rest, rfl, Program.ends_query_iff.2 rfl, h⟩
    · exact ⟨true, [_], _ :: rest, rfl, Program.ends_query_iff.2 rfl,
        Program.ends_bind_iff.2 ⟨_, [_], rest, rfl, ends_readEntry_iff.2 ⟨text, rfl, rfl⟩, h⟩⟩

/-- The manifest that was read leads somewhere when its text says so. -/
theorem map_file_entryAt_eq_ok_iff {manifest : Path} {text : Except IoFault String}
    {main : String} :
    (Manifest.entryAt manifest text).map Manifest.Entry.file = .ok main ↔
      ∃ s, text = .ok s ∧ mainOf s = .ok main := by
  rcases text with io | s
  · constructor
    · rintro ⟨⟩
    · rintro ⟨s, ⟨⟩, -⟩
  · rw [Manifest.entryAt]
    have hmap : ((Manifest.entry s).mapError fun cause => (⟨manifest, cause⟩ : ManifestFault)).map
        Manifest.Entry.file = (mainOf s).mapError fun cause => ⟨manifest, cause⟩ := by
      rw [← map_file_entry]
      cases Manifest.entry s <;> rfl
    rw [hmap]
    constructor
    · intro h
      refine ⟨s, rfl, ?_⟩
      rcases hs : mainOf s with cause | found
      · rw [hs] at h
        cases h
      · rw [hs] at h
        cases h
        rfl
    · rintro ⟨s', ⟨⟩, h⟩
      rw [h]
      rfl

theorem map_file_eq_error_iff {r : Except ManifestFault Manifest.Entry} {fault : ManifestFault} :
    r.map Manifest.Entry.file = .error fault ↔ r = .error fault := by
  cases r with
  | error other =>
    constructor
    · rintro ⟨⟩
      rfl
    · rintro ⟨⟩
      rfl
  | ok e =>
    constructor
    · rintro ⟨⟩
    · rintro ⟨⟩

/-- **Nothing is found at a path** after just these exchanges. -/
theorem ends_asEither_missed_iff : (asEither p exts).Ends es .missed ↔ MissedAt exts p es := by
  rw [asEither, ends_orElse_missed_iff]
  constructor
  · rintro ⟨before, after, rfl, hfile, hdir⟩
    obtain rfl := ends_asFile_missed_iff.1 hfile
    obtain ⟨rest, rfl, h⟩ | ⟨text, rest, rfl, h⟩ := ends_asDirectory_iff.1 hdir
    · obtain rfl := ends_asIndex_missed_iff.1 h
      rw [← absent_append, ← absent_append]
      exact .index
    · obtain ⟨main, hmain, rfl⟩ := ends_asEntry_missed_iff.1 h
      obtain ⟨s, rfl, hs⟩ := map_file_entryAt_eq_ok_iff.1 hmain
      rw [← List.append_assoc]
      exact .entry hs
  · intro h
    cases h with
    | index =>
      exact ⟨_, _, absent_append .., ends_asFile_missed_iff.2 rfl,
        ends_asDirectory_iff.2 (.inl ⟨_, rfl, ends_asIndex_missed_iff.2 rfl⟩)⟩
    | entry hs =>
      refine ⟨_, _, List.append_assoc .., ends_asFile_missed_iff.2 rfl,
        ends_asDirectory_iff.2 (.inr ⟨_, _, rfl, ends_asEntry_missed_iff.2 ⟨_, ?_, rfl⟩⟩)⟩
      exact map_file_entryAt_eq_ok_iff.2 ⟨_, rfl, hs⟩

/-- **A broken manifest is met at a path** after just these exchanges. -/
theorem ends_asEither_broken_iff {fault : ManifestFault} :
    (asEither p exts).Ends es (.broken fault) ↔
      ∃ text, es = absent (fileNames p exts) ++ readManifest p text ∧
        fault.path = Manifest.ofDirectory p ∧ BrokenAs text fault.cause := by
  rw [asEither, (unbreakable_asFile p exts).ends_orElse_broken_iff]
  constructor
  · rintro ⟨before, after, rfl, hfile, hdir⟩
    obtain rfl := ends_asFile_missed_iff.1 hfile
    obtain ⟨rest, rfl, h⟩ | ⟨text, rest, rfl, h⟩ := ends_asDirectory_iff.1 hdir
    · exact absurd h (unbreakable_asIndex p exts rest fault)
    · obtain ⟨rfl, herror⟩ := ends_asEntry_broken_iff.1 h
      rw [List.append_nil]
      exact ⟨text, rfl, entryAt_eq_error_iff.1 (map_file_eq_error_iff.1 herror)⟩
  · rintro ⟨text, rfl, hbroken⟩
    refine ⟨_, _, rfl, ends_asFile_missed_iff.2 rfl, ends_asDirectory_iff.2 (.inr ⟨text, [],
      (List.append_nil _).symm, ends_asEntry_broken_iff.2 ⟨rfl, ?_⟩⟩)⟩
    exact map_file_eq_error_iff.2 (entryAt_eq_error_iff.2 hbroken)

/-- **A search over paths is ended by a broken manifest** after just these exchanges. -/
theorem ends_firstOf_broken_iff {ps : List Path} {fault : ManifestFault} :
    (firstOf (ps.map fun p => asEither p exts)).Ends es (.broken fault) ↔
      Aborted exts ps es fault := by
  induction ps generalizing es with
  | nil =>
    constructor
    · intro h
      cases (Program.ends_done_iff.1 h).2
    · rintro ⟨⟩
  | cons p ps ih =>
    rw [List.map_cons, firstOf, ends_orElse_iff]
    constructor
    · rintro (⟨before, after, rfl, hmissed, h⟩ | ⟨-, h⟩)
      · exact .later (ends_asEither_missed_iff.1 hmissed) (ih.1 h)
      · obtain ⟨path, cause⟩ := fault
        obtain ⟨text, rfl, rfl, hbroken⟩ := ends_asEither_broken_iff.1 h
        exact .here hbroken
    · intro h
      cases h with
      | here hbroken =>
        exact .inr ⟨Outcome.noConfusion, ends_asEither_broken_iff.2 ⟨_, rfl, rfl, hbroken⟩⟩
      | later hmissed h => exact .inl ⟨_, _, rfl, ends_asEither_missed_iff.2 hmissed, ih.2 h⟩

/-- One path is a search of its own. -/
theorem ends_asEither_broken_iff_aborted {fault : ManifestFault} :
    (asEither p exts).Ends es (.broken fault) ↔ Aborted exts [p] es fault := by
  rw [← ends_firstOf_broken_iff, List.map_singleton, firstOf, firstOf, ends_orElse_iff]
  constructor
  · exact fun h => .inr ⟨Outcome.noConfusion, h⟩
  · rintro (⟨before, after, -, -, h⟩ | ⟨-, h⟩)
    · cases (Program.ends_done_iff.1 h).2
    · exact h

end Stages

/-! ## Whole lookups -/

section Lookups

variable {ctx : Context} {spec : String} {start : Path} {es : List Exchange}
  {fault : ManifestFault}

theorem ends_inPackages_broken_iff {exts : List String} :
    (inPackages spec start exts).Ends es (.broken fault) ↔
      Aborted exts ((searchPath start).map fun dir => dir.join ⟨spec⟩) es fault := by
  rw [← Program.ends_silent_iff, silent_inPackages, Program.ends_silent_iff,
    ← ends_firstOf_broken_iff, List.map_map]
  exact Attempt.ends_firstOf_congr fun _ _ _ => Attempt.ends_orElse_giveUp_iff

theorem ends_conclude_error_iff {found : Path → Resolved} {a : Attempt} :
    (conclude found a).Ends es (.error fault) ↔ a.Ends es (.broken fault) := by
  rw [conclude, Program.ends_bind_iff]
  constructor
  · rintro ⟨o, before, after, rfl, ha, h⟩
    cases o with
    | missed => cases (Program.ends_done_iff.1 h).2
    | hit p => cases (Program.ends_done_iff.1 (Program.ends_note_iff.1 h)).2
    | broken other =>
      obtain ⟨rfl, ⟨⟩⟩ := Program.ends_done_iff.1 h
      rwa [List.append_nil]
  · exact fun ha => ⟨_, es, [], (List.append_nil es).symm, ha, .done _⟩

/-- **A lookup ends with an error** after just these exchanges. -/
theorem ends_resolve_error_iff :
    (resolve ctx spec start).Ends es (.error fault) ↔
      Aborted ctx.extensions (basesOf spec start) es fault := by
  have hnone : ¬Aborted ctx.extensions [] es fault := by rintro ⟨⟩
  rw [resolve, basesOf]
  by_cases hs : spec = ""
  · rw [if_pos hs, if_pos hs]
    refine iff_of_false (fun h => ?_) hnone
    cases (Program.ends_done_iff.1 (Program.ends_note_iff.1 h)).2
  · rw [if_neg hs, if_neg hs]
    refine Program.ends_note_iff.trans ?_
    cases SpecifierKind.of spec with
    | core =>
      refine iff_of_false (fun h => ?_) hnone
      cases (Program.ends_done_iff.1 (Program.ends_note_iff.1 h)).2
    | relative => exact ends_conclude_error_iff.trans ends_asEither_broken_iff_aborted
    | bare => exact ends_conclude_error_iff.trans ends_inPackages_broken_iff

/-- The project's own directories add no error. -/
theorem ends_find_error_iff :
    (find ctx spec start).Ends es (.error fault) ↔
      Aborted ctx.extensions (basesOf spec start) es fault := by
  rw [← ends_resolve_error_iff, find, Program.ends_bind_iff]
  constructor
  · rintro ⟨r, before, after, rfl, hresolve, h⟩
    rcases r with other | resolved
    · obtain ⟨rfl, ⟨⟩⟩ := Program.ends_done_iff.1 h
      rwa [List.append_nil]
    · cases resolved with
      | notFound =>
        dsimp only at h
        split at h
        · exact absurd (ends_conclude_error_iff.1 h) (unbreakable_underAliases _ _ _ _ _ _)
        · cases (Program.ends_done_iff.1 h).2
      | _ => cases (Program.ends_done_iff.1 h).2
  · exact fun h => ⟨_, es, [], (List.append_nil es).symm, h, .done _⟩

/-! ### Through a cache -/

/-- Nothing that was kept is given back. -/
inductive NotServed (cache : Option Cache) (k : CacheKey) : List Exchange → Prop where
  /-- nothing was kept -/
  | unknown (h : cache.bind (Cache.get? · k) = none) : NotServed cache k []
  /-- the file that was found has changed -/
  | stale {e : CacheEntry} {p : Path} {now : Option Metadata}
      (h : cache.bind (Cache.get? · k) = some e) (hp : e.stamp.path = some p)
      (hchanged : Stamp.agrees e.stamp.known now = false) :
      NotServed cache k [⟨.metadata p, now⟩]

/-- The first part of a lookup through a cache: what was kept, if that is valid. -/
def keptIn (cache : Option Cache) (k : CacheKey) : Program (Option CacheEntry) :=
  match cache.bind (Cache.get? · k) with
  | some e => do if ← e.stamp.isValid then pure (some e) else pure none
  | none => pure none

theorem ends_isValid_false_iff {stamp : Stamp} :
    stamp.isValid.Ends es false ↔ ∃ p now, stamp.path = some p ∧
      Stamp.agrees stamp.known now = false ∧ es = [⟨.metadata p, now⟩] := by
  rw [Stamp.isValid]
  rcases hp : stamp.path with _ | p
  · constructor
    · intro h
      cases (Program.ends_done_iff.1 h).2
    · rintro ⟨p, now, ⟨⟩, -⟩
  · dsimp only
    rw [Program.ends_bind_iff]
    constructor
    · rintro ⟨now, before, after, rfl, hasked, h⟩
      obtain rfl := Program.ends_query_iff.1 hasked
      obtain ⟨rfl, hchanged⟩ := Program.ends_done_iff.1 h
      exact ⟨p, now, rfl, hchanged.symm, rfl⟩
    · rintro ⟨p, now, ⟨⟩, hchanged, rfl⟩
      exact ⟨now, _, [], rfl, Program.ends_query_iff.2 rfl,
        Program.ends_done_iff.2 ⟨rfl, hchanged.symm⟩⟩

theorem ends_keptIn_none_iff {cache : Option Cache} {k : CacheKey} :
    (keptIn cache k).Ends es none ↔ NotServed cache k es := by
  rw [keptIn]
  constructor
  · intro h
    rcases hk : cache.bind (Cache.get? · k) with _ | e
    · rw [hk] at h
      obtain ⟨rfl, -⟩ := Program.ends_done_iff.1 h
      exact .unknown hk
    · rw [hk] at h
      obtain ⟨valid, before, after, rfl, hvalid, h⟩ := Program.ends_bind_iff.1 h
      cases valid with
      | true => cases (Program.ends_done_iff.1 h).2
      | false =>
        obtain ⟨rfl, -⟩ := Program.ends_done_iff.1 h
        obtain ⟨p, now, hp, hchanged, rfl⟩ := ends_isValid_false_iff.1 hvalid
        exact .stale hk hp hchanged
  · intro h
    cases h with
    | unknown hk =>
      rw [hk]
      exact .done none
    | stale hk hp hchanged =>
      rw [hk]
      exact Program.ends_bind_iff.2 ⟨false, _, [], rfl,
        ends_isValid_false_iff.2 ⟨_, _, hp, hchanged, rfl⟩, .done none⟩

theorem findCached_eq (ctx : Context) (cache : Option Cache) (spec : String) (start : Path) :
    findCached ctx cache spec start
      = keptIn cache (CacheKey.of ctx spec start) >>= fun kept =>
        match kept with
        | some e => return (.ok e.resolved, cache)
        | none => do
          match ← find ctx spec start with
          | .error fault => return (.error fault, cache)
          | .ok resolved =>
            let stamp ← Stamp.take resolved
            return (.ok resolved,
              cache.map (Cache.insert · (CacheKey.of ctx spec start) ⟨resolved, stamp⟩)) := by
  rw [findCached, keptIn]
  cases cache.bind (Cache.get? · (CacheKey.of ctx spec start)) with
  | none => rfl
  | some e =>
    dsimp only
    rw [Program.bind_assoc]
    refine congrArg (e.stamp.isValid >>= ·) (funext fun valid => ?_)
    cases valid <;> rfl

/-- A lookup through a cache ends with an error when nothing that was kept is given back and the
lookup itself ends so. Nothing is kept of it. -/
theorem ends_findCached_error_iff {cache cache' : Option Cache} :
    (findCached ctx cache spec start).Ends es (.error fault, cache') ↔
      cache' = cache ∧ ∃ before after, es = before ++ after ∧
        NotServed cache (CacheKey.of ctx spec start) before ∧
        Aborted ctx.extensions (basesOf spec start) after fault := by
  rw [findCached_eq, Program.ends_bind_iff]
  constructor
  · rintro ⟨kept, before, after, rfl, hkept, h⟩
    cases kept with
    | some e => cases (Program.ends_done_iff.1 h).2
    | none =>
      obtain ⟨r, found, rest, rfl, hfind, h⟩ := Program.ends_bind_iff.1 h
      rcases r with other | resolved
      · obtain ⟨rfl, ⟨⟩⟩ := Program.ends_done_iff.1 h
        rw [List.append_nil]
        exact ⟨rfl, before, found, rfl, ends_keptIn_none_iff.1 hkept, ends_find_error_iff.1 hfind⟩
      · obtain ⟨stamp, -, last, -, -, h⟩ := Program.ends_bind_iff.1 h
        cases (Program.ends_done_iff.1 h).2
  · rintro ⟨rfl, before, after, rfl, hkept, haborted⟩
    exact ⟨none, before, after, rfl, ends_keptIn_none_iff.2 hkept, Program.ends_bind_iff.2
      ⟨_, after, [], (List.append_nil after).symm, ends_find_error_iff.2 haborted, .done _⟩⟩

end Lookups

end ModuleLookup
