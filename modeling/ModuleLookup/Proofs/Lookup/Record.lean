import ModuleLookup.Disk.Memory
import ModuleLookup.Proofs.Lookup.BrokenManifest

/-!
# What a record tells

A record is written piece by piece, by whichever stage a lookup is in. Here it is read as a whole,
beside the exchanges of the lookup: the tried paths are those that were probed, as far as there is
room for them, and the end of the lookup is noted once, at the end, if a file was found.

* `probed` — the paths that were probed, all of them and in order.
* `Program.induction_withTrace` — what holds of exchanges and record at first, and is kept by one
  question and by one note, holds of them at the end; `Trace.Holds` and the lack of repeated
  warnings are such.
* `Program.Quiet`, `TellsEnd` — the stages never note the end of the lookup; what is noted of it.
* `Fruitless`, `Attempt.Searches` — before a file is found there are manifests at most.
* `lookups_recorded` — a record tells what happened.
-/

namespace ModuleLookup

/-- The path that a question probes. -/
def Query.probed? : Query → Option Path
  | isFile p => some p
  | _ => none

/-- The paths that were probed, in order. -/
def probed (es : List Exchange) : List Path :=
  es.filterMap fun e => e.question.probed?

/-! ## From piece to piece -/

namespace Program

variable {α β : Type} {p : Program α} {es : List Exchange} {a : α} {t t' : Trace}

theorem withTrace_bind (p : Program α) (f : α → Program β) (t : Trace) :
    (p >>= f).withTrace t = p.withTrace t >>= fun r => (f r.1).withTrace r.2 := by
  induction p generalizing t with
  | done a => rfl
  | ask q next ih => exact congrArg (ask q) (funext fun answer => ih answer (t.addQuery q))
  | note n next ih => exact ih (t.addNote n)

/-- Of two programs in a row, the second goes on with the record of the first. -/
theorem ends_withTrace_bind_iff {f : α → Program β} {b : β} :
    ((p >>= f).withTrace t).Ends es (b, t') ↔ ∃ a between before after, es = before ++ after ∧
      (p.withTrace t).Ends before (a, between) ∧
      ((f a).withTrace between).Ends after (b, t') := by
  rw [withTrace_bind, ends_bind_iff, Prod.exists]

/-- Keeping a record exchanges nothing. -/
theorem ends_of_withTrace (h : (p.withTrace t).Ends es (a, t')) : p.Ends es a := by
  induction p generalizing es t with
  | done a =>
    obtain ⟨rfl, ⟨⟩⟩ := ends_done_iff.1 h
    exact .done _
  | ask q next ih =>
    obtain ⟨answer, rest, rfl, hnext⟩ := ends_ask_iff.1 h
    exact .ask answer (ih answer hnext)
  | note n next ih => exact .note n (ih h)

/-- **What every question and every note keeps** is kept over a whole run. -/
theorem induction_withTrace {I : List Exchange → Trace → Prop}
    (hquery : ∀ es t q answer, I es t → I (es ++ [⟨q, answer⟩]) (t.addQuery q))
    (hnote : ∀ es t n, I es t → I es (t.addNote n)) (before : List Exchange)
    (hfirst : I before t) (h : (p.withTrace t).Ends es (a, t')) : I (before ++ es) t' := by
  induction p generalizing before es t with
  | done a =>
    obtain ⟨rfl, ⟨⟩⟩ := ends_done_iff.1 h
    rw [List.append_nil]
    exact hfirst
  | ask q next ih =>
    obtain ⟨answer, rest, rfl, hnext⟩ := ends_ask_iff.1 h
    rw [List.append_cons]
    exact ih answer _ (hquery before t q answer hfirst) hnext
  | note n next ih => exact ih before (hnote before t n hfirst) h

end Program

/-! ### Tried paths -/

/-- The record holds the first of these paths as tried, and says whether there are more. -/
def Trace.Holds (t : Trace) (ps : List Path) : Prop :=
  t.tried = ps.take 64 ∧ (t.truncated = true ↔ 64 < ps.length)

namespace Trace

variable {t : Trace} {ps : List Path}

/-- One path more: there is room for it, or it is only told that there are more. -/
theorem Holds.addTried (h : t.Holds ps) (p : Path) : (t.addTried p).Holds (ps ++ [p]) := by
  obtain ⟨htried, htruncated⟩ := h
  have hlength : t.tried.length = min 64 ps.length := by rw [htried, List.length_take]
  unfold Trace.addTried
  split
  · next hroom =>
    have hps : ps.length < 64 := by rw [hlength, capacity] at hroom; omega
    constructor
    · change t.tried ++ [p] = (ps ++ [p]).take 64
      rw [htried, List.take_of_length_le (by omega),
        List.take_of_length_le (by rw [List.length_append, List.length_singleton]; omega)]
    · rw [List.length_append, List.length_singleton]
      change t.truncated = true ↔ _
      rw [htruncated]
      omega
  · next hfull =>
    have hps : 64 ≤ ps.length := by rw [hlength, capacity] at hfull; omega
    constructor
    · change t.tried = (ps ++ [p]).take 64
      rw [htried, List.take_append_of_le_length hps]
    · rw [List.length_append, List.length_singleton]
      exact ⟨fun _ => Nat.lt_succ_of_le hps, fun _ => rfl⟩

theorem Holds.addQuery {es : List Exchange} (h : t.Holds (probed es)) (q : Query)
    (answer : q.Answer) : (t.addQuery q).Holds (probed (es ++ [⟨q, answer⟩])) := by
  rw [probed, List.filterMap_append]
  cases q with
  | isFile p => exact h.addTried p
  | _ =>
    rw [List.filterMap_cons_none rfl, List.filterMap_nil, List.append_nil]
    exact h

theorem Holds.addNote (h : t.Holds ps) (n : Note) : (t.addNote n).Holds ps := by
  cases n with
  | step s => exact h
  | warning w =>
    change (t.addWarning w).Holds ps
    unfold addWarning
    split <;> exact h

/-! ### Steps and warnings -/

theorem steps_addTried (t : Trace) (p : Path) : (t.addTried p).steps = t.steps := by
  unfold Trace.addTried
  split <;> rfl

theorem warnings_addTried (t : Trace) (p : Path) : (t.addTried p).warnings = t.warnings := by
  unfold Trace.addTried
  split <;> rfl

theorem steps_addQuery (t : Trace) (q : Query) : (t.addQuery q).steps = t.steps := by
  cases q with
  | isFile p => exact t.steps_addTried p
  | _ => rfl

theorem warnings_addQuery (t : Trace) (q : Query) : (t.addQuery q).warnings = t.warnings := by
  cases q with
  | isFile p => exact t.warnings_addTried p
  | _ => rfl

theorem steps_addNote_warning (t : Trace) (w : Warning) :
    (t.addNote (.warning w)).steps = t.steps := by
  change (t.addWarning w).steps = t.steps
  unfold addWarning
  split <;> rfl

/-- What was told before is not told again. -/
theorem nodup_warnings_addNote (h : t.warnings.Nodup) (n : Note) :
    (t.addNote n).warnings.Nodup := by
  cases n with
  | step s => exact h
  | warning w =>
    change (t.addWarning w).warnings.Nodup
    unfold addWarning
    split
    · exact h
    · next hw =>
      refine List.nodup_append.2 ⟨h, List.pairwise_singleton _ w, fun v hv w' hw' => ?_⟩
      rw [List.mem_singleton.1 hw']
      exact fun heq => hw (heq ▸ hv)

end Trace

/-! ## The end of a lookup -/

namespace Program

variable {α β : Type} {p : Program α} {es : List Exchange} {a : α} {t t' : Trace}

/-- A program that never notes the end of a lookup. -/
inductive Quiet : Program α → Prop where
  /-- the end -/
  | done (a : α) : Quiet (done a)
  /-- a question, whatever the answer -/
  | ask {q : Query} {next : q.Answer → Program α} (h : ∀ answer, Quiet (next answer)) :
      Quiet (ask q next)
  /-- a stage before the end -/
  | step {s : Step} {next : Program α} (hs : s.kind ≠ .final) (h : Quiet next) :
      Quiet (note (.step s) next)
  /-- an oddity -/
  | warning (w : Warning) {next : Program α} (h : Quiet next) : Quiet (note (.warning w) next)

theorem Quiet.bind {f : α → Program β} (hp : p.Quiet) (hf : ∀ a, (f a).Quiet) :
    (p >>= f).Quiet := by
  induction hp with
  | done a => exact hf a
  | ask _ ih => exact .ask ih
  | step hs _ ih => exact .step hs ih
  | warning w _ ih => exact .warning w ih

/-- What a quiet program adds to the steps is not the end of a lookup. -/
theorem Quiet.steps (hp : p.Quiet) (h : (p.withTrace t).Ends es (a, t')) :
    ∃ ss, t'.steps = t.steps ++ ss ∧ ∀ s ∈ ss, s.kind ≠ .final := by
  induction hp generalizing es t with
  | done a =>
    obtain ⟨-, ⟨⟩⟩ := ends_done_iff.1 h
    exact ⟨[], (List.append_nil _).symm, fun s hs => absurd hs List.not_mem_nil⟩
  | @ask q next _ ih =>
    obtain ⟨answer, rest, -, hnext⟩ := ends_ask_iff.1 h
    obtain ⟨ss, hss, hquiet⟩ := ih answer hnext
    exact ⟨ss, by rw [hss, Trace.steps_addQuery], hquiet⟩
  | @step s next hs _ ih =>
    obtain ⟨ss, hss, hquiet⟩ := ih h
    exact ⟨s :: ss, hss.trans (List.append_cons ..).symm, List.forall_mem_cons.2 ⟨hs, hquiet⟩⟩
  | warning w _ ih =>
    obtain ⟨ss, hss, hquiet⟩ := ih h
    exact ⟨ss, by rw [hss, Trace.steps_addNote_warning], hquiet⟩

end Program

section Stages

open Attempt Program

variable {a b : Attempt}

theorem quiet_query (q : Query) : (query q).Quiet :=
  .ask fun answer => .done answer

theorem quiet_step (kind : StepKind) (h : kind ≠ .final) (ok : Bool) (detail : String)
    (path : Option Path) : (step kind ok detail path).Quiet :=
  .step h (.done ())

theorem quiet_warn (kind : WarningKind) (message : String) : (warn kind message).Quiet :=
  .warning _ (.done ())

theorem quiet_probe {kind : StepKind} (h : kind ≠ .final) (detail : String) (p : Path) :
    (probe kind detail p).Quiet :=
  .ask fun there => by
    cases there with
    | true => exact .step h (.done _)
    | false => exact .done _

theorem quiet_giveUp {kind : StepKind} (h : kind ≠ .final) (detail : String)
    (path : Option Path) : (giveUp kind detail path).Quiet :=
  .step h (.done _)

theorem Program.Quiet.orElse (ha : a.Quiet) (hb : b.Quiet) : (a.orElse b).Quiet :=
  Quiet.bind ha fun o => by
    cases o with
    | missed => exact hb
    | _ => exact .done _

theorem quiet_firstOf {α : Type} {f : α → Attempt} (h : ∀ x, (f x).Quiet) (xs : List α) :
    (firstOf (xs.map f)).Quiet := by
  induction xs with
  | nil => exact .done _
  | cons x xs ih => exact (h x).orElse ih

theorem quiet_asFile (p : Path) (exts : List String) : (asFile p exts).Quiet := by
  have hprobe := quiet_probe (show StepKind.file ≠ .final by decide)
  exact ((hprobe _ _).orElse (quiet_firstOf (fun _ => hprobe _ _) exts)).orElse
    (quiet_giveUp (by decide) _ _)

theorem quiet_asIndex (dir : Path) (exts : List String) : (asIndex dir exts).Quiet := by
  have hprobe := quiet_probe (show StepKind.index ≠ .final by decide)
  exact (quiet_firstOf (fun _ => hprobe _ _) exts).orElse (quiet_giveUp (by decide) _ _)

theorem quiet_readEntry (manifest : Path) : (Manifest.readEntry manifest).Quiet := by
  refine (quiet_query _).bind fun text => ?_
  rcases Manifest.entryAt manifest text with fault | e
  · exact .done _
  · have hread := fun detail : String =>
      (quiet_step .manifest (by decide) true detail (some manifest)).bind fun _ =>
        .done (.ok e.file : Except ManifestFault String)
    cases e with
    | odd v => exact (quiet_warn _ _).bind fun _ => hread _
    | _ => exact hread _

theorem quiet_asEntry (dir : Path) (exts : List String) (r : Except ManifestFault String) :
    (asEntry dir exts r).Quiet := by
  cases r with
  | error fault => exact .done _
  | ok entry =>
    exact ((quiet_asFile _ exts).orElse (quiet_asIndex _ exts)).orElse
      (quiet_giveUp (by decide) _ _)

theorem quiet_asEither (p : Path) (exts : List String) : (asEither p exts).Quiet := by
  refine (quiet_asFile p exts).orElse ?_
  rw [asDirectory_eq]
  refine (quiet_query _).bind fun there => ?_
  cases there with
  | true => exact (quiet_readEntry _).bind (quiet_asEntry p exts)
  | false => exact quiet_asIndex p exts

theorem quiet_inPackages (spec : String) (start : Path) (exts : List String) :
    (inPackages spec start exts).Quiet := by
  have hdirs : (firstOf ((searchPath start).map (inDirectory spec exts))).Quiet :=
    quiet_firstOf (fun _ => (quiet_asEither _ exts).orElse (quiet_giveUp (by decide) _ _)) _
  refine (quiet_step .searchPath (by decide) _ _ _).bind fun _ => ?_
  by_cases hi : isInsidePackages start = true
  · rw [if_pos hi]
    exact (quiet_warn _ _).bind fun _ => hdirs
  · rw [if_neg hi]
    exact hdirs

theorem quiet_underAliases (spec : String) (projectRoot : Path) (roots exts : List String) :
    (underAliases spec projectRoot roots exts).Quiet := by
  have hprobe := quiet_probe (show StepKind.aliasRoots ≠ .final by decide)
  have hroot (root : String) : (underRoot spec projectRoot exts root).Quiet :=
    (hprobe _ _).orElse (quiet_firstOf (fun _ => (hprobe _ _).orElse (hprobe _ _)) exts)
  exact (quiet_firstOf hroot roots).orElse (quiet_giveUp (by decide) _ _)

end Stages

/-! ### What is noted of it -/

/-- A lookup ended with this file. -/
def Finds (r : Except ManifestFault Resolved) (p : Path) : Prop :=
  r = .ok (.file p) ∨ r = .ok (.aliased p)

/-- The steps of a lookup that ended so: if it found a file, the last of them tells that, and no
other does. -/
structure TellsEnd (r : Except ManifestFault Resolved) (ss : List Step) : Prop where
  /-- a file that was found is told of at the end -/
  found : ∀ p, Finds r p → ∃ earlier,
    ss = earlier ++ [⟨.final, true, "Resolution complete", some p⟩] ∧
      ∀ s ∈ earlier, s.kind ≠ .final
  /-- otherwise there is nothing to tell -/
  nothing : (∀ p, ¬Finds r p) → ∀ s ∈ ss, s.kind ≠ .final

theorem not_finds_notFound (p : Path) : ¬Finds (.ok .notFound) p := by
  rintro (⟨⟨⟩⟩ | ⟨⟨⟩⟩)

theorem not_finds_core (name : String) (p : Path) : ¬Finds (.ok (.core name)) p := by
  rintro (⟨⟨⟩⟩ | ⟨⟨⟩⟩)

theorem not_finds_error (fault : ManifestFault) (p : Path) : ¬Finds (.error fault) p := by
  rintro (⟨⟨⟩⟩ | ⟨⟨⟩⟩)

theorem finds_resolved_iff {s : Strategy} {p q : Path} :
    Finds (.ok (s.resolved p)) q ↔ p = q := by
  constructor
  · cases s <;> rintro (⟨⟨⟩⟩ | ⟨⟨⟩⟩) <;> rfl
  · rintro rfl
    cases s with
    | outward => exact .inl rfl
    | aliasRoots => exact .inr rfl

namespace TellsEnd

variable {r : Except ManifestFault Resolved} {earlier ss : List Step}

/-- Nothing was found, and nothing is told. -/
theorem of_quiet (hr : ∀ p, ¬Finds r p) (h : ∀ s ∈ ss, s.kind ≠ .final) : TellsEnd r ss :=
  ⟨fun p hp => absurd hp (hr p), fun _ => h⟩

/-- Quiet steps may go before. -/
theorem append (hquiet : ∀ s ∈ earlier, s.kind ≠ .final) (h : TellsEnd r ss) :
    TellsEnd r (earlier ++ ss) where
  found p hp := by
    obtain ⟨between, rfl, hbetween⟩ := h.found p hp
    exact ⟨earlier ++ between, (List.append_assoc ..).symm,
      List.forall_mem_append.2 ⟨hquiet, hbetween⟩⟩
  nothing hr := List.forall_mem_append.2 ⟨hquiet, h.nothing hr⟩

end TellsEnd

section Ends

variable {ctx : Context} {spec : String} {start : Path} {es : List Exchange}
  {r : Except ManifestFault Resolved} {t t' : Trace}

/-- The end of an attempt is noted when it hits a file. -/
theorem tellsEnd_conclude {s : Strategy} {a : Attempt} (ha : a.Quiet)
    (h : ((conclude s.resolved a).withTrace t).Ends es (r, t')) :
    ∃ ss, t'.steps = t.steps ++ ss ∧ TellsEnd r ss := by
  obtain ⟨o, between, before, after, -, hattempt, h⟩ := Program.ends_withTrace_bind_iff.1 h
  obtain ⟨ss, hss, hquiet⟩ := ha.steps hattempt
  cases o with
  | missed =>
    obtain ⟨-, ⟨⟩⟩ := Program.ends_done_iff.1 h
    exact ⟨ss, hss, .of_quiet not_finds_notFound hquiet⟩
  | broken fault =>
    obtain ⟨-, ⟨⟩⟩ := Program.ends_done_iff.1 h
    exact ⟨ss, hss, .of_quiet (not_finds_error fault) hquiet⟩
  | hit p =>
    obtain ⟨-, ⟨⟩⟩ := Program.ends_done_iff.1 h
    refine ⟨ss ++ [⟨.final, true, "Resolution complete", some p⟩], ?_, fun q hq => ?_,
      fun hr => absurd (finds_resolved_iff.2 rfl) (hr p)⟩
    · rw [← List.append_assoc, ← hss]
      rfl
    · obtain rfl := finds_resolved_iff.1 hq
      exact ⟨ss, rfl, hquiet⟩

/-- A step before the end may go before. -/
theorem tellsEnd_step (kind : StepKind) (hkind : kind ≠ .final) {ok : Bool} {detail : String}
    {path : Option Path} {p : Program (Except ManifestFault Resolved)}
    (hp : ∀ t, (p.withTrace t).Ends es (r, t') → ∃ ss, t'.steps = t.steps ++ ss ∧ TellsEnd r ss)
    (h : ((Program.step kind ok detail path >>= fun _ => p).withTrace t).Ends es (r, t')) :
    ∃ ss, t'.steps = t.steps ++ ss ∧ TellsEnd r ss := by
  obtain ⟨ss, hss, hend⟩ := hp (t.addStep ⟨kind, ok, detail, path⟩) h
  exact ⟨_ :: ss, hss.trans (List.append_cons ..).symm,
    hend.append (List.forall_mem_singleton.2 hkind)⟩

theorem tellsEnd_done {r' : Except ManifestFault Resolved} (hr : ∀ p, ¬Finds r' p)
    (h : ((Program.done r').withTrace t).Ends es (r, t')) :
    ∃ ss, t'.steps = t.steps ++ ss ∧ TellsEnd r ss := by
  obtain ⟨-, ⟨⟩⟩ := Program.ends_done_iff.1 h
  exact ⟨[], (List.append_nil _).symm, .of_quiet hr fun s hs => absurd hs List.not_mem_nil⟩

/-- The steps of a lookup from the requesting directory outwards. -/
theorem tellsEnd_resolve (h : ((resolve ctx spec start).withTrace t).Ends es (r, t')) :
    ∃ ss, t'.steps = t.steps ++ ss ∧ TellsEnd r ss := by
  rw [resolve] at h
  split at h
  · exact tellsEnd_step .classify (by decide) (fun t => tellsEnd_done not_finds_notFound) h
  · refine tellsEnd_step .classify (by decide) (fun t h => ?_) h
    cases hk : SpecifierKind.of spec with
    | core =>
      rw [hk] at h
      exact tellsEnd_step .core (by decide) (fun t => tellsEnd_done (not_finds_core spec)) h
    | relative =>
      rw [hk] at h
      exact tellsEnd_conclude (s := .outward) (quiet_asEither _ _) h
    | bare =>
      rw [hk] at h
      exact tellsEnd_conclude (s := .outward) (quiet_inPackages _ _ _) h

/-- The steps of a lookup. -/
theorem tellsEnd_find (h : ((find ctx spec start).withTrace t).Ends es (r, t')) :
    ∃ ss, t'.steps = t.steps ++ ss ∧ TellsEnd r ss := by
  obtain ⟨first, between, before, after, -, hresolve, h⟩ := Program.ends_withTrace_bind_iff.1 h
  obtain ⟨ss, hss, hend⟩ := tellsEnd_resolve hresolve
  rcases first with fault | resolved
  · obtain ⟨-, ⟨⟩⟩ := Program.ends_done_iff.1 h
    exact ⟨ss, hss, hend⟩
  · cases resolved with
    | notFound =>
      dsimp only at h
      split at h
      · obtain ⟨ss', hss', hend'⟩ :=
          tellsEnd_conclude (s := .aliasRoots) (quiet_underAliases _ _ _ _) h
        refine ⟨ss ++ ss', ?_, hend'.append (hend.nothing not_finds_notFound)⟩
        rw [hss', hss, List.append_assoc]
      · obtain ⟨-, ⟨⟩⟩ := Program.ends_done_iff.1 h
        exact ⟨ss, hss, hend⟩
    | _ =>
      obtain ⟨-, ⟨⟩⟩ := Program.ends_done_iff.1 h
      exact ⟨ss, hss, hend⟩

end Ends

/-! ## Before the hit -/

/-- Exchanges in which no file was found: none was there, but for manifests of these directories,
and each of them was read at once. -/
inductive Fruitless (bases : List Path) : List Exchange → Prop where
  /-- nothing was exchanged -/
  | nil : Fruitless bases []
  /-- there is no file -/
  | absent (p : Path) {es : List Exchange} (h : Fruitless bases es) :
      Fruitless bases (⟨.isFile p, false⟩ :: es)
  /-- there is a manifest, and it is read -/
  | manifest {dir : Path} (hdir : dir ∈ bases) (text : Except IoFault String)
      {es : List Exchange} (h : Fruitless bases es) :
      Fruitless bases (readManifest dir text ++ es)

namespace Fruitless

variable {bases : List Path} {es fs : List Exchange}

theorem append (h : Fruitless bases es) (hfs : Fruitless bases fs) :
    Fruitless bases (es ++ fs) := by
  induction h with
  | nil => exact hfs
  | absent p _ ih => exact .absent p ih
  | manifest hdir text _ ih => exact .manifest hdir text ih

/-- A file that was there is a manifest, and the next thing was to read it. -/
theorem exists_manifest (h : Fruitless bases es) {before after : List Exchange} {q : Path}
    (hes : es = before ++ ⟨.isFile q, true⟩ :: after) :
    ∃ dir ∈ bases, q = Manifest.ofDirectory dir ∧ ∃ text rest,
      after = ⟨.readText q, text⟩ :: rest := by
  induction h generalizing before with
  | nil => exact absurd hes.symm (List.append_ne_nil_of_right_ne_nil before (List.cons_ne_nil _ _))
  | absent p _ ih =>
    cases before with
    | nil => cases hes
    | cons e before => exact ih (List.cons.inj hes).2
  | @manifest dir hdir text es _ ih =>
    match before with
    | [] =>
      obtain ⟨hq, rfl⟩ := List.cons.inj hes
      cases hq
      exact ⟨dir, hdir, rfl, text, es, rfl⟩
    | [e] => cases (List.cons.inj (List.cons.inj hes).2).1
    | e :: e' :: before => exact ih (List.cons.inj (List.cons.inj hes).2).2

end Fruitless

/-- An attempt finds nothing on the way to the file it hits, if it hits one. -/
def Attempt.Searches (bases : List Path) (a : Attempt) : Prop :=
  ∀ es o, a.Ends es o → (o = .missed → Fruitless bases es) ∧ ∀ p, o = .hit p →
    ∃ earlier, es = earlier ++ [⟨.isFile p, true⟩] ∧ Fruitless bases earlier

section Searches

open Attempt

variable {bases : List Path} {a b : Attempt}

theorem searches_probe (kind : StepKind) (detail : String) (p : Path) :
    (probe kind detail p).Searches bases := by
  intro es o h
  obtain ⟨there, rfl, rfl⟩ := ends_probe_iff.1 h
  cases there with
  | false =>
    rw [if_neg Bool.false_ne_true]
    exact ⟨fun _ => .absent p .nil, fun q hq => nomatch hq⟩
  | true =>
    rw [if_pos rfl]
    refine ⟨Outcome.noConfusion, ?_⟩
    rintro q ⟨⟩
    exact ⟨[], rfl, .nil⟩

theorem searches_giveUp (kind : StepKind) (detail : String) (path : Option Path) :
    (giveUp kind detail path).Searches bases := by
  intro es o h
  obtain ⟨rfl, rfl⟩ := ends_giveUp_iff.1 h
  exact ⟨fun _ => .nil, fun p hp => nomatch hp⟩

/-- What the first attempt did not find comes before what the second does. -/
theorem Attempt.Searches.orElse (ha : a.Searches bases) (hb : b.Searches bases) :
    (a.orElse b).Searches bases := by
  intro es o h
  obtain ⟨before, after, rfl, hbefore, hafter⟩ | ⟨-, hfirst⟩ := ends_orElse_iff.1 h
  · have hfruitless := (ha _ _ hbefore).1 rfl
    obtain ⟨hmissed, hhit⟩ := hb _ _ hafter
    refine ⟨fun ho => hfruitless.append (hmissed ho), fun p hp => ?_⟩
    obtain ⟨earlier, rfl, hearlier⟩ := hhit p hp
    exact ⟨before ++ earlier, (List.append_assoc ..).symm, hfruitless.append hearlier⟩
  · exact ha _ _ hfirst

theorem searches_firstOf {α : Type} {f : α → Attempt} {xs : List α}
    (h : ∀ x ∈ xs, (f x).Searches bases) : (firstOf (xs.map f)).Searches bases := by
  induction xs with
  | nil =>
    intro es o hends
    obtain ⟨rfl, rfl⟩ := Program.ends_done_iff.1 hends
    exact ⟨fun _ => .nil, fun p hp => nomatch hp⟩
  | cons x xs ih =>
    exact (h x List.mem_cons_self).orElse (ih fun y hy => h y (List.mem_cons_of_mem x hy))

theorem searches_asFile (p : Path) (exts : List String) : (asFile p exts).Searches bases :=
  ((searches_probe _ _ _).orElse (searches_firstOf fun _ _ => searches_probe _ _ _)).orElse
    (searches_giveUp _ _ _)

theorem searches_asIndex (dir : Path) (exts : List String) :
    (asIndex dir exts).Searches bases :=
  (searches_firstOf fun _ _ => searches_probe _ _ _).orElse (searches_giveUp _ _ _)

theorem searches_asEntry (dir : Path) (exts : List String) (r : Except ManifestFault String) :
    (asEntry dir exts r).Searches bases := by
  cases r with
  | error fault =>
    intro es o h
    obtain ⟨-, rfl⟩ := Program.ends_done_iff.1 h
    exact ⟨Outcome.noConfusion, fun _ => Outcome.noConfusion⟩
  | ok entry =>
    exact ((searches_asFile _ exts).orElse (searches_asIndex _ exts)).orElse
      (searches_giveUp _ _ _)

/-- A path is searched as a directory with its own manifest at most. -/
theorem searches_asDirectory {dir : Path} (hdir : dir ∈ bases) (exts : List String) :
    (asDirectory dir exts).Searches bases := by
  intro es o h
  obtain ⟨rest, rfl, hrest⟩ | ⟨text, rest, rfl, hrest⟩ := ends_asDirectory_iff.1 h
  · obtain ⟨hmissed, hhit⟩ :=
      (show Attempt.Searches bases _ from searches_asIndex dir exts) _ _ hrest
    refine ⟨fun ho => .absent _ (hmissed ho), fun p hp => ?_⟩
    obtain ⟨earlier, rfl, hearlier⟩ := hhit p hp
    exact ⟨_ :: earlier, rfl, .absent _ hearlier⟩
  · obtain ⟨hmissed, hhit⟩ :=
      (show Attempt.Searches bases _ from searches_asEntry dir exts _) _ _ hrest
    refine ⟨fun ho => .manifest hdir text (hmissed ho), fun p hp => ?_⟩
    obtain ⟨earlier, rfl, hearlier⟩ := hhit p hp
    exact ⟨readManifest dir text ++ earlier, (List.append_assoc ..).symm,
      .manifest hdir text hearlier⟩

theorem searches_asEither {p : Path} (hp : p ∈ bases) (exts : List String) :
    (asEither p exts).Searches bases :=
  (searches_asFile p exts).orElse (searches_asDirectory hp exts)

theorem searches_inPackages {spec : String} {start : Path}
    (h : ∀ dir ∈ searchPath start, dir.join ⟨spec⟩ ∈ bases) (exts : List String) :
    (inPackages spec start exts).Searches bases := by
  intro es o hends
  rw [← Program.ends_silent_iff, silent_inPackages, Program.ends_silent_iff] at hends
  have hdirs : (firstOf ((searchPath start).map (inDirectory spec exts))).Searches bases :=
    searches_firstOf fun dir hdir =>
      (searches_asEither (h dir hdir) exts).orElse (searches_giveUp _ _ _)
  exact hdirs es o hends

theorem searches_underAliases (spec : String) (projectRoot : Path) (roots exts : List String) :
    (underAliases spec projectRoot roots exts).Searches bases :=
  (searches_firstOf fun _ _ => (searches_probe _ _ _).orElse (searches_firstOf
    fun _ _ => (searches_probe _ _ _).orElse (searches_probe _ _ _))).orElse
      (searches_giveUp _ _ _)

end Searches

/-- What a lookup exchanged, by how it ended. -/
structure Searched (bases : List Path) (es : List Exchange) (r : Except ManifestFault Resolved) :
    Prop where
  /-- nothing was found at all -/
  missed : r = .ok .notFound → Fruitless bases es
  /-- nothing was found before the file, which was asked for last -/
  hit : ∀ p, Finds r p → ∃ earlier, es = earlier ++ [⟨.isFile p, true⟩] ∧ Fruitless bases earlier

section Lookups

variable {ctx : Context} {spec : String} {start : Path} {bases : List Path} {es : List Exchange}
  {r : Except ManifestFault Resolved}

theorem searched_conclude {s : Strategy} {a : Attempt} (ha : a.Searches bases)
    (h : (conclude s.resolved a).Ends es r) : Searched bases es r := by
  obtain ⟨o, before, after, rfl, hattempt, hend⟩ := Program.ends_bind_iff.1 h
  obtain ⟨hmissed, hhit⟩ := ha _ _ hattempt
  cases o with
  | missed =>
    obtain ⟨rfl, rfl⟩ := Program.ends_done_iff.1 hend
    rw [List.append_nil]
    exact ⟨fun _ => hmissed rfl, fun p hp => absurd hp (not_finds_notFound p)⟩
  | broken fault =>
    obtain ⟨rfl, rfl⟩ := Program.ends_done_iff.1 hend
    exact ⟨fun hr => (by cases hr), fun p hp => absurd hp (not_finds_error fault p)⟩
  | hit p =>
    obtain ⟨rfl, rfl⟩ := Program.ends_done_iff.1 (Program.ends_note_iff.1 hend)
    rw [List.append_nil]
    refine ⟨fun hr => ?_, fun q hq => ?_⟩
    · cases s <;> cases hr
    · obtain rfl := finds_resolved_iff.1 hq
      exact hhit p rfl

/-- From the requesting directory outwards only manifests are met before the file. -/
theorem searched_resolve (h : (resolve ctx spec start).Ends es r) :
    Searched (basesOf spec start) es r := by
  rw [resolve] at h
  rw [basesOf]
  by_cases hs : spec = ""
  · rw [if_pos hs] at h
    obtain ⟨rfl, rfl⟩ := Program.ends_done_iff.1 (Program.ends_note_iff.1 h)
    exact ⟨fun _ => .nil, fun p hp => absurd hp (not_finds_notFound p)⟩
  · rw [if_neg hs] at h ⊢
    replace h := Program.ends_note_iff.1 h
    cases hk : SpecifierKind.of spec with
    | core =>
      rw [hk] at h
      obtain ⟨rfl, rfl⟩ := Program.ends_done_iff.1 (Program.ends_note_iff.1 h)
      exact ⟨fun hr => (by cases hr), fun p hp => absurd hp (not_finds_core spec p)⟩
    | relative =>
      rw [hk] at h
      exact searched_conclude (s := .outward) (searches_asEither (List.mem_singleton_self _) _) h
    | bare =>
      rw [hk] at h
      exact searched_conclude (s := .outward)
        (searches_inPackages (fun dir hdir => List.mem_map.2 ⟨dir, hdir, rfl⟩) _) h

/-- The project's own directories are searched without any manifest. -/
theorem searched_find (h : (find ctx spec start).Ends es r) :
    Searched (basesOf spec start) es r := by
  obtain ⟨first, before, after, rfl, hresolve, hend⟩ := Program.ends_bind_iff.1 h
  have houtward := searched_resolve hresolve
  rcases first with fault | resolved
  · obtain ⟨rfl, rfl⟩ := Program.ends_done_iff.1 hend
    rwa [List.append_nil]
  · cases resolved with
    | notFound =>
      dsimp only at hend
      split at hend
      · have haliases : Searched (basesOf spec start) after r :=
          searched_conclude (s := .aliasRoots) (searches_underAliases _ _ _ _) hend
        have hbefore := houtward.missed rfl
        refine ⟨fun hr => hbefore.append (haliases.missed hr), fun p hp => ?_⟩
        obtain ⟨earlier, rfl, hearlier⟩ := haliases.hit p hp
        exact ⟨before ++ earlier, (List.append_assoc ..).symm, hbefore.append hearlier⟩
      · obtain ⟨rfl, rfl⟩ := Program.ends_done_iff.1 hend
        rwa [List.append_nil]
    | _ =>
      obtain ⟨rfl, rfl⟩ := Program.ends_done_iff.1 hend
      rwa [List.append_nil]

end Lookups

/-! ## Whole records -/

/-- A record tells of a lookup that went through paths, with these exchanges and this end. -/
structure Recorded (bases : List Path) (es : List Exchange) (r : Except ManifestFault Resolved)
    (t : Trace) : Prop where
  /-- the tried paths are the first ones that were probed -/
  tried : t.tried = (probed es).take 64
  /-- more were probed just if it says so -/
  truncated : t.truncated = true ↔ 64 < (probed es).length
  /-- nothing odd is told twice -/
  warnings : t.warnings.Nodup
  /-- it tells of the end just if a file was found -/
  final_iff : (∃ s ∈ t.steps, s.kind.word = "final_path") ↔ ∃ p, Finds r p
  /-- that is its last step, and only that one, with the file -/
  final : ∀ p, Finds r p → ∃ earlier,
    t.steps = earlier ++ [⟨.final, true, "Resolution complete", some p⟩] ∧
      ∀ s ∈ earlier, s.kind.word ≠ "final_path"
  /-- the file was probed last of all, and every file that was there before is the manifest of
  one of the paths, which was read next -/
  hit : ∀ p, Finds r p → ∃ earlier, es = earlier ++ [⟨.isFile p, true⟩] ∧
    ∀ before q after, earlier = before ++ ⟨.isFile q, true⟩ :: after →
      ∃ dir ∈ bases, q = dir.join ⟨"package.json"⟩ ∧
        ∃ text rest, after = ⟨.readText q, text⟩ :: rest

theorem word_eq_final_iff {kind : StepKind} : kind.word = "final_path" ↔ kind = .final := by
  cases kind <;> decide

/-- What is known of a record that was empty at first. -/
theorem recorded_of_ends {p : Program (Except ManifestFault Resolved)} {bases : List Path}
    {es : List Exchange} {r : Except ManifestFault Resolved} {t : Trace}
    (h : (p.withTrace .empty).Ends es (r, t)) (hsteps : TellsEnd r t.steps)
    (hsearched : Searched bases es r) : Recorded bases es r t := by
  have hholds : t.Holds (probed es) :=
    Program.induction_withTrace (I := fun es t => t.Holds (probed es))
      (fun _ _ q answer ht => ht.addQuery q answer) (fun _ _ n ht => ht.addNote n)
      [] ⟨rfl, by decide⟩ h
  have hwarnings : t.warnings.Nodup :=
    Program.induction_withTrace (I := fun _ t => t.warnings.Nodup)
      (fun _ t q _ ht => (t.warnings_addQuery q).symm ▸ ht)
      (fun _ _ n ht => Trace.nodup_warnings_addNote ht n) [] List.nodup_nil h
  have hfinal (q : Path) (hq : Finds r q) : ∃ earlier,
      t.steps = earlier ++ [⟨.final, true, "Resolution complete", some q⟩] ∧
        ∀ s ∈ earlier, s.kind.word ≠ "final_path" := by
    obtain ⟨earlier, hearlier, hquiet⟩ := hsteps.found q hq
    exact ⟨earlier, hearlier, fun s hs hword => hquiet s hs (word_eq_final_iff.1 hword)⟩
  refine ⟨hholds.1, hholds.2, hwarnings, ⟨?_, ?_⟩, hfinal, fun q hq => ?_⟩
  · rintro ⟨s, hs, hword⟩
    refine Classical.byContradiction fun hnone => ?_
    exact hsteps.nothing (not_exists.1 hnone) s hs (word_eq_final_iff.1 hword)
  · rintro ⟨q, hq⟩
    obtain ⟨earlier, hearlier, -⟩ := hfinal q hq
    exact ⟨_, hearlier ▸ List.mem_append_right earlier (List.mem_singleton_self _), rfl⟩
  · obtain ⟨earlier, hes, hfruitless⟩ := hsearched.hit q hq
    exact ⟨earlier, hes, fun before q after hq => hfruitless.exists_manifest hq⟩

/-- **A record tells what happened** in a lookup that started with an empty one: the first 64 of the
paths that were probed and whether there were more, each oddity once, and the file that was found
as its last step and nowhere else. The file was probed last; a file that was there before it is a
manifest that was read. This is so whatever comes back from the file system, even if it changes
while it is being asked, and in particular on every disk. -/
theorem lookups_recorded (ctx : Context) (spec : String) (start : Path) :
    (∀ es r t, ((resolve ctx spec start).withTrace .empty).Ends es (r, t) →
      Recorded (basesOf spec start) es r t) ∧
    (∀ es r t, ((find ctx spec start).withTrace .empty).Ends es (r, t) →
      Recorded (basesOf spec start) es r t) ∧
    ∀ d : Disk,
      Recorded (basesOf spec start)
        (((resolve ctx spec start).asked d).map fun q => ⟨q, d q⟩)
        ((resolve ctx spec start).traced d .empty).1
        ((resolve ctx spec start).traced d .empty).2 ∧
      Recorded (basesOf spec start)
        (((find ctx spec start).asked d).map fun q => ⟨q, d q⟩)
        ((find ctx spec start).traced d .empty).1 ((find ctx spec start).traced d .empty).2 := by
  have hresolve (es : List Exchange) (r : Except ManifestFault Resolved) (t : Trace)
      (h : ((resolve ctx spec start).withTrace .empty).Ends es (r, t)) :
      Recorded (basesOf spec start) es r t := by
    obtain ⟨ss, hss, hend⟩ := tellsEnd_resolve h
    exact recorded_of_ends h (hss ▸ hend) (searched_resolve (Program.ends_of_withTrace h))
  have hfind (es : List Exchange) (r : Except ManifestFault Resolved) (t : Trace)
      (h : ((find ctx spec start).withTrace .empty).Ends es (r, t)) :
      Recorded (basesOf spec start) es r t := by
    obtain ⟨ss, hss, hend⟩ := tellsEnd_find h
    exact recorded_of_ends h (hss ▸ hend) (searched_find (Program.ends_of_withTrace h))
  have ends_traced (p : Program (Except ManifestFault Resolved)) (d : Disk) :
      (p.withTrace .empty).Ends ((p.asked d).map fun q => ⟨q, d q⟩) (p.traced d .empty) := by
    rw [← Program.asked_withTrace d p .empty, ← Program.run_withTrace]
    exact Program.ends_asked d _
  exact ⟨hresolve, hfind,
    fun d => ⟨hresolve _ _ _ (ends_traced _ d), hfind _ _ _ (ends_traced _ d)⟩⟩

/-- A package beside the root. -/
def packageAtRoot : Memory :=
  Memory.empty.write ⟨"/node_modules/pkg.js"⟩ ⟨"", none, none, true⟩

/-- From a directory further in the package is found, and the record tells of the way there. -/
theorem lookups_recorded_atRoot :
    ∃ es t, ((find (.withDefaults ⟨"/p"⟩) "pkg" ⟨"/p"⟩).withTrace .empty).Ends es
        (.ok (.file ⟨"/node_modules/pkg.js"⟩), t) ∧
      Recorded (basesOf "pkg" ⟨"/p"⟩) es (.ok (.file ⟨"/node_modules/pkg.js"⟩)) t := by
  have hends := Program.ends_asked packageAtRoot.disk
    ((find (.withDefaults ⟨"/p"⟩) "pkg" ⟨"/p"⟩).withTrace .empty)
  have hfound : (((find (.withDefaults ⟨"/p"⟩) "pkg" ⟨"/p"⟩).withTrace .empty).run
      packageAtRoot.disk).1.toOption = some (.file ⟨"/node_modules/pkg.js"⟩) := by
    decide +kernel
  rcases hr : ((find (.withDefaults ⟨"/p"⟩) "pkg" ⟨"/p"⟩).withTrace .empty).run
    packageAtRoot.disk with ⟨r, t⟩
  rw [hr] at hends hfound
  obtain rfl : r = .ok (.file ⟨"/node_modules/pkg.js"⟩) := eq_ok_of_toOption_eq hfound
  exact ⟨_, t, hends, (lookups_recorded _ _ _).2.1 _ _ _ hends⟩

end ModuleLookup
