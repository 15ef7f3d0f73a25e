import ModuleLookup.Disk.Query
import ModuleLookup.Trace

/-!
# Programs that ask a file system

A `Program` is a finite dialogue: it asks a question, goes on depending on the
answer, may note what it is doing, and ends with a value. It can be looked at in
several ways, and they all come from the one dialogue:

* `Program.run` — its value on a disk;
* `Program.asked` — the questions it asks on a disk, in order;
* `Program.traced` — its value together with the record of a traced run.

`run_bind`, `asked_bind` and `traced_bind` take each of them through a sequence of
two programs.
-/

namespace ModuleLookup

/-- Something a program notes about itself. -/
inductive Note where
  /-- a stage was gone through -/
  | step (s : Step)
  /-- something was odd -/
  | warning (w : Warning)
  deriving DecidableEq

/-- A dialogue with a file system that ends with a value. -/
inductive Program (α : Type) where
  /-- the end -/
  | done (a : α)
  /-- a question, and how to go on after each answer -/
  | ask (q : Query) (next : q.Answer → Program α)
  /-- a note, and how to go on -/
  | note (n : Note) (next : Program α)

/-- The record after a note. -/
def Trace.addNote (t : Trace) : Note → Trace
  | .step s => t.addStep s
  | .warning w => t.addWarning w

/-- The record after a question: only tried paths are kept. -/
def Trace.addQuery (t : Trace) : Query → Trace
  | .isFile p => t.addTried p
  | _ => t

namespace Program

variable {α β : Type}

/-- A program, and then another that depends on its value. -/
protected def bind : Program α → (α → Program β) → Program β
  | done a, f => f a
  | ask q next, f => ask q fun answer => (next answer).bind f
  | note n next, f => note n (next.bind f)

instance : Monad Program where
  pure := done
  bind := Program.bind

@[simp] theorem pure_eq_done (a : α) : (pure a : Program α) = done a := rfl

@[simp] theorem done_bind (a : α) (f : α → Program β) : (done a >>= f) = f a := rfl

@[simp] theorem ask_bind (q : Query) (next : q.Answer → Program α) (f : α → Program β) :
    (ask q next >>= f) = ask q fun answer => next answer >>= f := rfl

@[simp] theorem note_bind (n : Note) (next : Program α) (f : α → Program β) :
    (note n next >>= f) = note n (next >>= f) := rfl

/-- Asks one question. -/
def query (q : Query) : Program q.Answer :=
  ask q done

/-- Notes a stage. -/
def step (kind : StepKind) (ok : Bool) (detail : String) (path : Option Path) : Program Unit :=
  note (.step ⟨kind, ok, detail, path⟩) (done ())

/-- Notes an oddity. -/
def warn (kind : WarningKind) (message : String) : Program Unit :=
  note (.warning ⟨kind, message⟩) (done ())

/-- The value of a program on a disk. -/
def run (d : Disk) : Program α → α
  | done a => a
  | ask q next => (next (d q)).run d
  | note _ next => next.run d

/-- The questions that a program asks on a disk, in order. -/
def asked (d : Disk) : Program α → List Query
  | done _ => []
  | ask q next => q :: (next (d q)).asked d
  | note _ next => next.asked d

/-- The value of a program on a disk, and the record after it. -/
def traced (d : Disk) : Program α → Trace → α × Trace
  | done a, t => (a, t)
  | ask q next, t => (next (d q)).traced d (t.addQuery q)
  | note n next, t => next.traced d (t.addNote n)

/-- The program that also keeps the record of a traced run of itself. -/
def withTrace (t : Trace) : Program α → Program (α × Trace)
  | done a => done (a, t)
  | ask q next => ask q fun answer => (next answer).withTrace (t.addQuery q)
  | note n next => next.withTrace (t.addNote n)

/-- Runs a program where answers are found step by step. -/
def perform {m : Type → Type} [Monad m] (answer : (q : Query) → m q.Answer) :
    Program α → m α
  | done a => pure a
  | ask q next => do (next (← answer q)).perform answer
  | note _ next => next.perform answer

@[simp] theorem run_bind (d : Disk) (p : Program α) (f : α → Program β) :
    (p >>= f).run d = (f (p.run d)).run d := by
  induction p with
  | done a => rfl
  | ask q next ih => simp [run, ih]
  | note n next ih => simp [run, ih]

@[simp] theorem asked_bind (d : Disk) (p : Program α) (f : α → Program β) :
    (p >>= f).asked d = p.asked d ++ (f (p.run d)).asked d := by
  induction p with
  | done a => rfl
  | ask q next ih => simp [run, asked, ih]
  | note n next ih => simp [run, asked, ih]

theorem traced_bind (d : Disk) (p : Program α) (f : α → Program β) (t : Trace) :
    (p >>= f).traced d t = (f (p.traced d t).1).traced d (p.traced d t).2 := by
  induction p generalizing t with
  | done a => rfl
  | ask q next ih => simp [traced, ih]
  | note n next ih => simp [traced, ih]

@[simp] theorem run_withTrace (d : Disk) (p : Program α) (t : Trace) :
    (p.withTrace t).run d = p.traced d t := by
  induction p generalizing t with
  | done a => rfl
  | ask q next ih => exact ih (d q) _
  | note n next ih => exact ih _

@[simp] theorem asked_withTrace (d : Disk) (p : Program α) (t : Trace) :
    (p.withTrace t).asked d = p.asked d := by
  induction p generalizing t with
  | done a => rfl
  | ask q next ih => simp [withTrace, asked, ih]
  | note n next ih => exact ih _

end Program

end ModuleLookup
