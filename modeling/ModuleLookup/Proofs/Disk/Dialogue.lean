import ModuleLookup.Disk.Program

/-!
# Dialogues

A program is seen from outside by what it asks, what it is answered, and what it ends with. What
it notes does not show.

* `Program.silent` — a program without its notes; it has the same value and asks the same
  questions, wherever the answers come from.
* `Program.Ends` — a program can end with a value after certain exchanges. The answers need not
  come from one disk: a question that is asked again may be answered differently.
* `ends_bind_iff`, `ends_silent_iff` — exchanges of a sequence of two programs, and of a program
  without its notes.
* `ends_asked` — on a disk, a program ends with its value after the questions it asks there.
-/

namespace ModuleLookup

/-- A question with an answer to it. -/
structure Exchange where
  /-- what was asked -/
  question : Query
  /-- what was answered -/
  answer : question.Answer

namespace Program

variable {α β : Type}

theorem bind_assoc {γ : Type} (p : Program α) (f : α → Program β) (g : β → Program γ) :
    p >>= f >>= g = p >>= fun a => f a >>= g := by
  induction p with
  | done a => rfl
  | ask q next ih => exact congrArg (ask q) (funext ih)
  | note n next ih => exact congrArg (note n) ih

/-! ## Without notes -/

/-- The program without its notes. -/
def silent : Program α → Program α
  | done a => done a
  | ask q next => ask q fun answer => (next answer).silent
  | note _ next => next.silent

theorem silent_step (kind : StepKind) (ok : Bool) (detail : String) (path : Option Path) :
    (step kind ok detail path).silent = done () :=
  rfl

theorem silent_warn (kind : WarningKind) (message : String) :
    (warn kind message).silent = done () :=
  rfl

theorem silent_bind (p : Program α) (f : α → Program β) :
    (p >>= f).silent = p.silent >>= fun a => (f a).silent := by
  induction p with
  | done a => rfl
  | ask q next ih => exact congrArg (ask q) (funext ih)
  | note n next ih => exact ih

theorem run_silent (d : Disk) (p : Program α) : p.silent.run d = p.run d := by
  induction p with
  | done a => rfl
  | ask q next ih => exact ih (d q)
  | note n next ih => exact ih

theorem asked_silent (d : Disk) (p : Program α) : p.silent.asked d = p.asked d := by
  induction p with
  | done a => rfl
  | ask q next ih => exact congrArg (q :: ·) (ih (d q))
  | note n next ih => exact ih

theorem perform_silent {m : Type → Type} [Monad m] (answer : (q : Query) → m q.Answer)
    (p : Program α) : p.silent.perform answer = p.perform answer := by
  induction p with
  | done a => rfl
  | ask q next ih => exact congrArg (answer q >>= ·) (funext ih)
  | note n next ih => exact ih

/-! ## Exchanges -/

/-- A program can end with a value after certain exchanges. -/
inductive Ends : Program α → List Exchange → α → Prop where
  /-- at the end nothing is asked -/
  | done (a : α) : Ends (done a) [] a
  /-- any answer may come back -/
  | ask {q : Query} {next : q.Answer → Program α} (answer : q.Answer) {es : List Exchange}
      {a : α} (h : Ends (next answer) es a) : Ends (ask q next) (⟨q, answer⟩ :: es) a
  /-- notes are no exchanges -/
  | note (n : Note) {next : Program α} {es : List Exchange} {a : α} (h : Ends next es a) :
      Ends (note n next) es a

variable {es : List Exchange} {a : α} {b : β}

theorem ends_done_iff {a' : α} : (done a').Ends es a ↔ es = [] ∧ a = a' := by
  constructor
  · rintro ⟨⟩
    exact ⟨rfl, rfl⟩
  · rintro ⟨rfl, rfl⟩
    exact .done a

theorem ends_ask_iff {q : Query} {next : q.Answer → Program α} :
    (ask q next).Ends es a ↔
      ∃ answer rest, es = ⟨q, answer⟩ :: rest ∧ (next answer).Ends rest a := by
  constructor
  · rintro (_ | ⟨answer, h⟩)
    exact ⟨answer, _, rfl, h⟩
  · rintro ⟨answer, rest, rfl, h⟩
    exact .ask answer h

theorem ends_note_iff {n : Note} {next : Program α} :
    (note n next).Ends es a ↔ next.Ends es a := by
  constructor
  · rintro (_ | _ | ⟨_, h⟩)
    exact h
  · exact .note n

/-- One question, and a value that depends on the answer. -/
theorem ends_ask_done_iff {q : Query} {f : q.Answer → α} :
    (ask q fun answer => done (f answer)).Ends es a ↔
      ∃ answer, es = [⟨q, answer⟩] ∧ a = f answer := by
  rw [ends_ask_iff]
  constructor
  · rintro ⟨answer, rest, rfl, h⟩
    obtain ⟨rfl, rfl⟩ := ends_done_iff.1 h
    exact ⟨answer, rfl, rfl⟩
  · rintro ⟨answer, rfl, rfl⟩
    exact ⟨answer, [], rfl, .done _⟩

theorem ends_query_iff {q : Query} {answer : q.Answer} :
    (query q).Ends es answer ↔ es = [⟨q, answer⟩] := by
  rw [query, ends_ask_done_iff]
  constructor
  · rintro ⟨given, rfl, rfl⟩
    rfl
  · rintro rfl
    exact ⟨answer, rfl, rfl⟩

/-- Of two programs in a row, each has its own part of the exchanges. -/
theorem ends_bind_iff {p : Program α} {f : α → Program β} :
    (p >>= f).Ends es b ↔ ∃ a before after, es = before ++ after ∧ p.Ends before a ∧
      (f a).Ends after b := by
  constructor
  · intro h
    induction p generalizing es with
    | done a => exact ⟨a, [], es, rfl, .done a, h⟩
    | ask q next ih =>
      obtain ⟨answer, rest, rfl, hrest⟩ := ends_ask_iff.1 h
      obtain ⟨a, before, after, rfl, hp, hf⟩ := ih answer hrest
      exact ⟨a, ⟨q, answer⟩ :: before, after, rfl, .ask answer hp, hf⟩
    | note n next ih =>
      obtain ⟨a, before, after, rfl, hp, hf⟩ := ih (ends_note_iff.1 h)
      exact ⟨a, before, after, rfl, .note n hp, hf⟩
  · rintro ⟨a, before, after, rfl, hp, hf⟩
    induction hp with
    | done a => exact hf
    | ask answer _ ih => exact .ask answer (ih hf)
    | note n _ ih => exact .note n (ih hf)

/-- Notes do not show in the exchanges. -/
theorem ends_silent_iff {p : Program α} : p.silent.Ends es a ↔ p.Ends es a := by
  induction p generalizing es with
  | done a => rfl
  | ask q next ih =>
    rw [silent, ends_ask_iff, ends_ask_iff]
    exact exists_congr fun answer => exists_congr fun rest => and_congr_right fun _ => ih answer
  | note n next ih => rw [silent, ends_note_iff, ih]

/-- On a disk, a program ends with its value after the questions it asks there. -/
theorem ends_asked (d : Disk) (p : Program α) :
    p.Ends ((p.asked d).map fun q => ⟨q, d q⟩) (p.run d) := by
  induction p with
  | done a => exact .done a
  | ask q next ih => exact .ask (d q) (ih (d q))
  | note n next ih => exact .note n ih

end Program

end ModuleLookup
