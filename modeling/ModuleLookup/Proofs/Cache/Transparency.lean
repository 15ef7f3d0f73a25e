import ModuleLookup.Disk.Memory
import ModuleLookup.Proofs.Cache.Work
import ModuleLookup.Proofs.Digest.Fingerprint
import ModuleLookup.Proofs.Lookup.Candidates

/-!
# A shared cache changes no result

A lookup through a cache looks for a kept result, checks its stamp, and if that fails
makes the lookup and keeps the result. Each of these is a step of its own here, so that
other lookups, also of other contexts, can do anything in between.

* `lookUp` — those steps; `run_findCached` — all of them in a row are the lookup that
  runs.
* `gives_lookUp` — with right results in the cache it gives what a lookup without a cache
  gives.
* `right_key_iff` — a result that is right for a key is right for every inquiry with it,
  since the key determines the context and the components of the directory, and more
  of the directory does not matter.
* `finished_lookUps_eq_find` — so every lookup gives what it gives without a cache, in
  whatever order they take their turns.
-/

namespace ModuleLookup

/-! ## A lookup in steps -/

/-- A lookup whose result is kept. -/
def lookUpAndKeep (ctx : Context) (spec : String) (start : Path) :
    Work (Except ManifestFault Resolved) := do
  match ← Work.ofProgram (find ctx spec start) with
  | .error fault => return .error fault
  | .ok resolved =>
    let stamp ← Work.ofProgram (Stamp.take resolved)
    .keep (CacheKey.of ctx spec start) ⟨resolved, stamp⟩ (return .ok resolved)

/-- A lookup through a cache. -/
def lookUp (ctx : Context) (spec : String) (start : Path) :
    Work (Except ManifestFault Resolved) :=
  .look (CacheKey.of ctx spec start) fun
    | none => lookUpAndKeep ctx spec start
    | some e => do
      if ← Work.ofProgram e.stamp.isValid then return .ok e.resolved
      else lookUpAndKeep ctx spec start

/-- The most steps that a lookup takes. -/
def lookUpSteps (d : Disk) (ctx : Context) (spec : String) (start : Path) : Nat :=
  ((find ctx spec start).asked d).length + 4

section Steps

variable {d : Disk} {ctx : Context} {spec : String} {start : Path}

theorem alone_lookUpAndKeep (c : Cache) :
    (lookUpAndKeep ctx spec start).alone d c
      = match (find ctx spec start).run d with
        | .error fault => (.error fault, c)
        | .ok resolved => (.ok resolved,
            c.insert (CacheKey.of ctx spec start) ⟨resolved, (Stamp.take resolved).run d⟩) := by
  rw [lookUpAndKeep, Work.alone_bind, Work.alone_ofProgram]
  rcases (find ctx spec start).run d with fault | resolved
  · rfl
  · dsimp only
    rw [Work.alone_bind, Work.alone_ofProgram]
    rfl

/-- The steps in a row are the lookup that runs. -/
theorem run_findCached (c : Cache) :
    (findCached ctx (some c) spec start).run d
      = (((lookUp ctx spec start).alone d c).1, some ((lookUp ctx spec start).alone d c).2) := by
  rw [findCached, lookUp]
  rcases hk : c.get? (CacheKey.of ctx spec start) with _ | e
  · simp only [Option.bind_some, hk, Program.pure_eq_done, Program.done_bind, Program.run_bind,
      Work.alone, alone_lookUpAndKeep]
    rcases (find ctx spec start).run d with fault | resolved
    · rfl
    · rw [Program.run_bind]
      rfl
  · simp only [Option.bind_some, hk, Program.run_bind, Work.alone, Work.alone_bind,
      Work.alone_ofProgram]
    cases e.stamp.isValid.run d with
    | true => rfl
    | false =>
      -- a result that is kept but not valid is as good as none
      simp only [Bool.false_eq_true, if_false, alone_lookUpAndKeep, Program.pure_eq_done,
        Program.done_bind, Program.run_bind]
      rcases (find ctx spec start).run d with fault | resolved
      · rfl
      · rw [Program.run_bind]
        rfl

theorem length_asked_isValid (stamp : Stamp) : (stamp.isValid.asked d).length ≤ 1 := by
  rw [Stamp.isValid]
  split
  · exact Nat.zero_le 1
  · exact Nat.le_refl 1

theorem length_asked_take (resolved : Resolved) :
    ((Stamp.take resolved).asked d).length ≤ 1 := by
  rw [Stamp.take]
  split
  · exact Nat.zero_le 1
  · exact Nat.le_refl 1

variable {Right : CacheKey → Resolved → Prop}

theorem gives_lookUpAndKeep
    (h : ∀ resolved, (find ctx spec start).run d = .ok resolved →
      Right (CacheKey.of ctx spec start) resolved) :
    Gives d Right (((find ctx spec start).asked d).length + 2) (lookUpAndKeep ctx spec start)
      ((find ctx spec start).run d) := by
  rw [lookUpAndKeep]
  refine (Gives.ofProgram (find ctx spec start)).bind ?_
  rcases hr : (find ctx spec start).run d with fault | resolved
  · exact .done 2 _
  · have hstamp : Gives d Right 1 (Work.ofProgram (Stamp.take resolved))
        ((Stamp.take resolved).run d) :=
      (Gives.ofProgram _).mono (length_asked_take resolved)
    refine hstamp.bind (n := 1) ?_
    exact .keep (h resolved hr) (.done 0 _)

/-- **A lookup through a cache** gives what it gives without one, if a result is right for
its key exactly when it is what the lookup gives. -/
theorem gives_lookUp
    (h : ∀ resolved, Right (CacheKey.of ctx spec start) resolved ↔
      (find ctx spec start).run d = .ok resolved) :
    Gives d Right (lookUpSteps d ctx spec start) (lookUp ctx spec start)
      ((find ctx spec start).run d) := by
  have hmiss := gives_lookUpAndKeep fun resolved => (h resolved).2
  refine .look fun hit hright => ?_
  rcases hit with _ | e
  · exact hmiss.mono (Nat.le_add_right _ 1)
  · have hvalid : Gives d Right 1 (Work.ofProgram e.stamp.isValid) (e.stamp.isValid.run d) :=
      (Gives.ofProgram _).mono (length_asked_isValid e.stamp)
    have hsteps : ((find ctx spec start).asked d).length + 3
        = 1 + (((find ctx spec start).asked d).length + 2) := by omega
    rw [hsteps]
    refine hvalid.bind (f := fun valid =>
      if valid then .done (.ok e.resolved) else lookUpAndKeep ctx spec start) ?_
    split
    · -- a valid stamp lets nothing through that is not right for the key
      rw [(h e.resolved).1 (hright e rfl)]
      exact .done _ _
    · exact hmiss

end Steps

/-! ## Inquiries -/

/-- Inputs among which the hash has no collision. -/
def Blake3.CollisionFree (inputs : List (List UInt8)) : Prop :=
  ∀ x ∈ inputs, ∀ y ∈ inputs, Blake3.hash x = Blake3.hash y → x = y

/-- A lookup that somebody asks for. -/
structure Inquiry where
  /-- the context -/
  context : Context
  /-- the specifier -/
  specifier : String
  /-- the requesting directory -/
  start : Path
  /-- the texts of the context fit into memory -/
  framable : context.Framable

namespace Inquiry

/-- What the result is kept under. -/
def key (r : Inquiry) : CacheKey :=
  .of r.context r.specifier r.start

/-- The result without a cache. -/
def result (r : Inquiry) (d : Disk) : Except ManifestFault Resolved :=
  (find r.context r.specifier r.start).run d

/-- The lookup through a cache. -/
def work (r : Inquiry) : Work (Except ManifestFault Resolved) :=
  lookUp r.context r.specifier r.start

/-- The most steps that it takes. -/
def steps (r : Inquiry) (d : Disk) : Nat :=
  lookUpSteps d r.context r.specifier r.start

/-- What the fingerprint of the context is a hash of. -/
def hashed (r : Inquiry) : List UInt8 :=
  framedParts r.context.parts

end Inquiry

/-- A result is right for a key when one of the inquiries with this key has it. -/
def RightFor (d : Disk) (inquiries : List Inquiry) (k : CacheKey) (resolved : Resolved) : Prop :=
  ∃ r ∈ inquiries, r.key = k ∧ r.result d = .ok resolved

section Inquiries

variable {d : Disk} {inquiries : List Inquiry}

/-- The same key, the same result. -/
theorem Inquiry.result_eq_of_key_eq
    (hash : Blake3.CollisionFree (inquiries.map Inquiry.hashed))
    {q r : Inquiry} (hq : q ∈ inquiries) (hr : r ∈ inquiries) (h : q.key = r.key) :
    q.result d = r.result d := by
  obtain ⟨hspec, hstart, hctx⟩ := CacheKey.mk.inj h
  have hctx' : q.context = r.context :=
    Context.eq_of_fingerprint_eq q.framable r.framable
      (hash _ (List.mem_map_of_mem hq) _ (List.mem_map_of_mem hr)) hctx
  rw [Inquiry.result, Inquiry.result, hspec, hctx']
  exact run_find_eq_of_same hstart r.context r.specifier

theorem right_key_iff (hash : Blake3.CollisionFree (inquiries.map Inquiry.hashed))
    {r : Inquiry} (hr : r ∈ inquiries) (resolved : Resolved) :
    RightFor d inquiries r.key resolved ↔ r.result d = .ok resolved := by
  constructor
  · rintro ⟨q, hq, hkey, hresult⟩
    rw [← Inquiry.result_eq_of_key_eq hash hq hr hkey]
    exact hresult
  · exact fun h => ⟨r, hr, rfl, h⟩

/-- The inquiries as lookups around an empty cache. -/
def poolOf (inquiries : List Inquiry) : Pool (Except ManifestFault Resolved) :=
  .start (inquiries.map Inquiry.work)

theorem ready_poolOf (hash : Blake3.CollisionFree (inquiries.map Inquiry.hashed)) :
    (poolOf inquiries).Ready d (RightFor d inquiries)
      (fun i => inquiries[i]?.elim 0 fun r => r.steps d) (inquiries.map fun r => r.result d) :=
  Pool.ready_start fun _ hr => gives_lookUp (right_key_iff hash hr)

end Inquiries

/-- **A shared cache changes no result.** Lookups of any contexts take turns around one
cache. Each of them that is finished has the result that it has without a cache; it is
finished when it has had its turns; and at any time a lookup through the cache as it is
then has that result, too. -/
theorem finished_lookUps_eq_find (d : Disk) (inquiries : List Inquiry)
    (hash : Blake3.CollisionFree (inquiries.map Inquiry.hashed)) (turns : List Nat)
    {i : Nat} {r : Inquiry} (hr : inquiries[i]? = some r) :
    (∀ found, ((poolOf inquiries).run d turns).works[i]? = some (.done found) →
        found = r.result d) ∧
      (r.steps d ≤ turns.count i →
        ((poolOf inquiries).run d turns).works[i]? = some (.done (r.result d))) ∧
      ((findCached r.context (some ((poolOf inquiries).run d turns).cache) r.specifier
        r.start).run d).1 = r.result d := by
  have hready := (ready_poolOf (d := d) hash).run turns
  have hresult : (inquiries.map fun r => r.result d)[i]? = some (r.result d) := by
    rw [List.getElem?_map, hr, Option.map_some]
  refine ⟨fun found hfound => hready.eq_of_done hfound hresult, fun hturns => ?_, ?_⟩
  · refine hready.done_of_eq_zero (Nat.sub_eq_zero_of_le ?_) hresult
    rw [hr]
    exact hturns
  · rw [run_findCached]
    exact ((gives_lookUp (right_key_iff hash (List.mem_of_getElem? hr))).alone
      hready.sound).1

theorem framable_withDefaults : (Context.withDefaults ⟨"/p"⟩).Framable := by
  rw [Context.Framable]
  decide +kernel

/-- An inquiry for `./a` from a directory of the given spelling. -/
def inquiryFrom (start : String) : Inquiry where
  context := .withDefaults ⟨"/p"⟩
  specifier := "./a"
  start := ⟨start⟩
  framable := framable_withDefaults

/-- Two spellings of one directory share what is kept: the second lookup is a hit, with the
result that it has without a cache. -/
theorem finished_lookUps_eq_find_spellings :
    ((poolOf [inquiryFrom "/p/", inquiryFrom "/p"]).run
      (Memory.empty.write ⟨"/p/a.js"⟩ ⟨"", none, none, true⟩).disk
      (List.replicate 9 0 ++ List.replicate 9 1)).works[1]?
        = some (.done (.ok (.file ⟨"/p/a.js"⟩))) := by
  have hash : Blake3.CollisionFree
      ([inquiryFrom "/p/", inquiryFrom "/p"].map Inquiry.hashed) := by
    have heq : (inquiryFrom "/p/").hashed = (inquiryFrom "/p").hashed := rfl
    have hall : ∀ x ∈ [inquiryFrom "/p/", inquiryFrom "/p"].map Inquiry.hashed,
        x = (inquiryFrom "/p").hashed := by
      simp only [List.map_cons, List.map_nil, heq, List.forall_mem_cons, List.not_mem_nil,
        false_imp_iff, implies_true, and_self]
    intro x hx y hy _
    rw [hall x hx, hall y hy]
  have h := (finished_lookUps_eq_find
    (Memory.empty.write ⟨"/p/a.js"⟩ ⟨"", none, none, true⟩).disk
    [inquiryFrom "/p/", inquiryFrom "/p"] hash (List.replicate 9 0 ++ List.replicate 9 1)
    (i := 1) rfl).2.1 (by decide +kernel)
  have hresult : (inquiryFrom "/p").result
      (Memory.empty.write ⟨"/p/a.js"⟩ ⟨"", none, none, true⟩).disk
        = .ok (.file ⟨"/p/a.js"⟩) :=
    eq_ok_of_toOption_eq (by decide +kernel)
  rw [h, hresult]

end ModuleLookup
