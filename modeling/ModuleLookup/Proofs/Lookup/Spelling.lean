import ModuleLookup.Disk.Memory
import ModuleLookup.Proofs.Disk.Dialogue
import ModuleLookup.Proofs.Lookup.Candidates
import ModuleLookup.Proofs.Path.Lead

/-!
# How a location is spelled

A requesting directory is used in two ways: a specifier is written behind it and the result
brought to normal form, or its normal form is cut into the search path. Both show its normal form
only. The directory as it was spelled is noted in the record, and what is noted decides nothing.

* `silent_find_congr` — from directories with one normal form, lookups are the same but for their
  notes.
* `resolve_normalize_join` — a path may be looked up as the normal form of where it leads.
* `lookups_spelling` — what follows for results and questions.
-/

namespace ModuleLookup

/-! ## Directories with one normal form -/

section Directories

variable {ctx : Context} {spec : String} {p q : Path}

theorem silent_inPackages (spec : String) (start : Path) (exts : List String) :
    (inPackages spec start exts).silent
      = (Attempt.firstOf ((searchPath start).map (inDirectory spec exts))).silent := by
  rw [inPackages, Program.silent_bind, Program.silent_step, Program.done_bind]
  by_cases h : isInsidePackages start = true
  · rw [if_pos h, Program.silent_bind, Program.silent_warn, Program.done_bind]
  · rw [if_neg h]

/-- The end of a lookup adds only a note. -/
theorem silent_conclude_congr {a b : Attempt} (h : a.silent = b.silent) (found : Path → Resolved) :
    (conclude found a).silent = (conclude found b).silent := by
  rw [conclude, conclude, Program.silent_bind, Program.silent_bind, h]

theorem silent_resolve_congr (h : p.normalComponents = q.normalComponents) :
    (resolve ctx spec p).silent = (resolve ctx spec q).silent := by
  rw [resolve, resolve]
  split
  · rfl
  · rw [Program.silent_bind, Program.silent_bind]
    cases SpecifierKind.of spec with
    | core => rfl
    | relative => rw [Path.normalize_congr (Path.normalComponents_join_congr h ⟨spec⟩)]
    | bare =>
      have hsearch : (inPackages spec p ctx.extensions).silent
          = (inPackages spec q ctx.extensions).silent := by
        rw [silent_inPackages, silent_inPackages, searchPath_congr h]
      exact congrArg _ (funext fun _ => silent_conclude_congr hsearch .file)

/-- **A lookup does not see how its directory is spelled**, but for what it notes. -/
theorem silent_find_congr (h : p.normalComponents = q.normalComponents) :
    (find ctx spec p).silent = (find ctx spec q).silent := by
  rw [find, find, Program.silent_bind, Program.silent_bind, silent_resolve_congr h]

end Directories

/-! ## Paths in place of specifiers -/

theorem not_isAbsolute_of_isCore {spec : String} (h : isCore spec = true) :
    (Path.mk spec).isAbsolute = false := by
  have hall : ∀ name ∈ coreModules, (Path.mk name).isAbsolute = false := by decide +kernel
  exact hall spec (List.contains_iff_mem.1 h)

theorem kind_of_isAbsolute {spec : String} (h : (Path.mk spec).isAbsolute = true) :
    SpecifierKind.of spec = .relative := by
  have hcore : ¬isCore spec = true := fun hc => by
    rw [not_isAbsolute_of_isCore hc] at h
    cases h
  rw [SpecifierKind.of, if_neg hcore, if_pos (.inr h)]

/-- A path is looked up like the normal form of where it leads, from anywhere. -/
theorem resolve_normalize_join (ctx : Context) {spec : String} {p : Path} (q : Path)
    (hspec : SpecifierKind.of spec = .relative) (hp : p.isAbsolute = true) :
    resolve ctx (p.join ⟨spec⟩).normalize.text q = resolve ctx spec p := by
  have habs : (p.join ⟨spec⟩).normalize.isAbsolute = true := by
    rw [Path.isAbsolute_normalize, Path.isAbsolute_join, hp, Bool.or_true]
  have hempty {s : String} (h : SpecifierKind.of s = .relative) : s ≠ "" := by
    rintro rfl
    exact absurd h (by decide)
  have hkind : SpecifierKind.of (p.join ⟨spec⟩).normalize.text = .relative :=
    kind_of_isAbsolute habs
  have hagain : (q.join ⟨(p.join ⟨spec⟩).normalize.text⟩).normalize
      = (p.join ⟨spec⟩).normalize := by
    rw [Path.join_of_isAbsolute habs]
    exact Path.normalize_eq_iff_lead.2 (Path.lead_normalize _)
  rw [resolve, resolve, if_neg (hempty hkind), if_neg (hempty hspec), hkind, hspec, hagain]

/-- **Lookups do not depend on how the location is spelled.** From directories with one normal
form both lookups have the same result, down to the text of a path, and ask a disk the same
questions; and they do so wherever the answers come from, such as a file system that changes while
it is being asked. A specifier that is a path may be replaced by the normal form of where it leads
from an absolute directory, and may then be looked up from anywhere. -/
theorem lookups_spelling (ctx : Context) (spec : String) :
    (∀ p q : Path, p.normalize = q.normalize →
      (∀ d : Disk,
        (resolve ctx spec p).run d = (resolve ctx spec q).run d ∧
        (resolve ctx spec p).asked d = (resolve ctx spec q).asked d ∧
        (find ctx spec p).run d = (find ctx spec q).run d ∧
        (find ctx spec p).asked d = (find ctx spec q).asked d) ∧
      ∀ (m : Type → Type) [Monad m] (answer : (q : Query) → m q.Answer),
        (resolve ctx spec p).perform answer = (resolve ctx spec q).perform answer ∧
        (find ctx spec p).perform answer = (find ctx spec q).perform answer) ∧
    (SpecifierKind.of spec = .relative → ∀ p q : Path, p.isAbsolute = true →
      resolve ctx (p.join ⟨spec⟩).normalize.text q = resolve ctx spec p) := by
  refine ⟨fun p q h => ?_, fun hspec p q hp => resolve_normalize_join ctx q hspec hp⟩
  have hcs : p.normalComponents = q.normalComponents :=
    Path.normalComponents_eq_of_lead (Path.normalize_eq_iff_lead.1 h)
  have hresolve : (resolve ctx spec p).silent = (resolve ctx spec q).silent :=
    silent_resolve_congr hcs
  have hfind : (find ctx spec p).silent = (find ctx spec q).silent := silent_find_congr hcs
  refine ⟨fun d => ⟨?_, ?_, ?_, ?_⟩, fun m _ answer => ⟨?_, ?_⟩⟩
  · rw [← Program.run_silent, hresolve, Program.run_silent]
  · rw [← Program.asked_silent, hresolve, Program.asked_silent]
  · rw [← Program.run_silent, hfind, Program.run_silent]
  · rw [← Program.asked_silent, hfind, Program.asked_silent]
  · rw [← Program.perform_silent, hresolve, Program.perform_silent]
  · rw [← Program.perform_silent, hfind, Program.perform_silent]

/-- A directory that is reached the long way round, and a path in place of a specifier that
climbs. -/
theorem lookups_spelling_roundabout :
    (find (Context.withDefaults ⟨"/p"⟩) "a" ⟨"//p/./lib/../"⟩).asked Memory.empty.disk
        = (find (Context.withDefaults ⟨"/p"⟩) "a" ⟨"/p"⟩).asked Memory.empty.disk ∧
      resolve (Context.withDefaults ⟨"/p"⟩) "/p/x" ⟨"elsewhere"⟩
        = resolve (Context.withDefaults ⟨"/p"⟩) "../x" ⟨"/p/lib"⟩ := by
  have hnormal : (Path.mk "//p/./lib/../").normalize = (Path.mk "/p").normalize := by
    decide +kernel
  have hjoin : ((Path.mk "/p/lib").join ⟨"../x"⟩).normalize.text = "/p/x" := by decide +kernel
  refine ⟨((lookups_spelling _ "a").1 _ _ hnormal).1 _ |>.2.2.2, ?_⟩
  have hclimb := (lookups_spelling (Context.withDefaults ⟨"/p"⟩) "../x").2 (by decide +kernel)
    ⟨"/p/lib"⟩ ⟨"elsewhere"⟩ (by decide +kernel)
  rwa [hjoin] at hclimb

end ModuleLookup
