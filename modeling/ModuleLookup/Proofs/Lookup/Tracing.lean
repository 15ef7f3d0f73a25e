import ModuleLookup.Disk.Memory
import ModuleLookup.Lookup.Find

/-!
# Lookups and their record

A record is kept while a lookup is under way, in between its questions. Whoever reads the
record wants to know how the lookup goes that is made without one, so keeping it must not show:
neither in the result nor in the questions, and not even when the answers change from one
question to the next.

* `Program.fst_map_perform_withTrace` — the record taken away again, a run that kept it is the
  run that did not, wherever the answers come from.
* `Disk.logged` — one such place: a disk that keeps a log of the questions. `perform_logged`
  says that its log holds what is asked.
* `lookups_withTrace` — so a lookup is the same with a record and without.
-/

namespace ModuleLookup

/-- The answers of a disk, with every question put at the end of a log. -/
def Disk.logged (d : Disk) (q : Query) : StateM (List Query) q.Answer :=
  fun log => (d q, log ++ [q])

namespace Program

variable {α : Type}

/-- **A record does not show.** Notes ask nothing, and no answer is looked for in the
record. -/
theorem fst_map_perform_withTrace {m : Type → Type} [Monad m] [LawfulMonad m]
    (answer : (q : Query) → m q.Answer) (p : Program α) (t : Trace) :
    Prod.fst <$> (p.withTrace t).perform answer = p.perform answer := by
  induction p generalizing t with
  | done a => rw [withTrace, perform, perform, map_pure]
  | ask q next ih =>
    -- the same question in both runs; whatever the answer is, they go on alike
    rw [withTrace, perform, perform, map_bind]
    exact bind_congr fun a => ih a (t.addQuery q)
  | note n next ih =>
    rw [withTrace, perform]
    exact ih (t.addNote n)

/-- The value is found in the record-keeping run as well. -/
theorem fst_run_withTrace (d : Disk) (p : Program α) (t : Trace) :
    ((p.withTrace t).run d).1 = p.run d := by
  induction p generalizing t with
  | done a => rfl
  | ask q next ih => exact ih (d q) (t.addQuery q)
  | note n next ih => exact ih (t.addNote n)

/-- On a disk with a log, a program leaves its value and the questions that it asks. -/
theorem perform_logged (d : Disk) (p : Program α) (log : List Query) :
    p.perform d.logged log = (p.run d, log ++ p.asked d) := by
  induction p generalizing log with
  | done a => rw [asked, List.append_nil]; rfl
  | ask q next ih =>
    rw [run, asked, List.append_cons]
    exact ih (d q) (log ++ [q])
  | note n next ih => exact ih log

end Program

/-- **A lookup is the same with a record and without.** From any record on, both have the same
result and ask a disk the same questions in the same order; and they do so wherever the answers
come from, such as a file system that changes while it is being asked. -/
theorem lookups_withTrace (ctx : Context) (spec : String) (start : Path) (t : Trace) :
    (∀ d : Disk,
      (((resolve ctx spec start).withTrace t).run d).1 = (resolve ctx spec start).run d ∧
      ((resolve ctx spec start).withTrace t).asked d = (resolve ctx spec start).asked d ∧
      (((find ctx spec start).withTrace t).run d).1 = (find ctx spec start).run d ∧
      ((find ctx spec start).withTrace t).asked d = (find ctx spec start).asked d) ∧
    ∀ (m : Type → Type) [Monad m] [LawfulMonad m] (answer : (q : Query) → m q.Answer),
      Prod.fst <$> ((resolve ctx spec start).withTrace t).perform answer
        = (resolve ctx spec start).perform answer ∧
      Prod.fst <$> ((find ctx spec start).withTrace t).perform answer
        = (find ctx spec start).perform answer := by
  constructor
  · intro d
    exact ⟨Program.fst_run_withTrace d _ t, Program.asked_withTrace d _ t,
      Program.fst_run_withTrace d _ t, Program.asked_withTrace d _ t⟩
  · intro m _ _ answer
    exact ⟨Program.fst_map_perform_withTrace answer _ t,
      Program.fst_map_perform_withTrace answer _ t⟩

/-- A log shows no difference, behind a record that is not empty. -/
theorem lookups_withTrace_logged :
    (Prod.fst <$> ((find (Context.withDefaults ⟨"/p"⟩) "./a" ⟨"/p"⟩).withTrace
        (Trace.empty.addTried ⟨"/q"⟩)).perform Memory.empty.disk.logged) []
      = ((find (Context.withDefaults ⟨"/p"⟩) "./a" ⟨"/p"⟩).run Memory.empty.disk,
          (find (Context.withDefaults ⟨"/p"⟩) "./a" ⟨"/p"⟩).asked Memory.empty.disk) := by
  have h := ((lookups_withTrace (Context.withDefaults ⟨"/p"⟩) "./a" ⟨"/p"⟩
    (Trace.empty.addTried ⟨"/q"⟩)).2 (StateM (List Query)) Memory.empty.disk.logged).2
  rw [h, Program.perform_logged, List.nil_append]

end ModuleLookup
