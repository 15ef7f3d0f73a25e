import ModuleLookup.Disk.Program

/-!
# Attempts

A lookup is a row of attempts, and the first that does not miss decides: it has hit
a file, or it met a broken manifest, which ends everything. `Attempt.orElse` puts two
attempts in a row, `Attempt.firstOf` any number of them.
-/

namespace ModuleLookup

/-- How an attempt ended. -/
inductive Outcome where
  /-- there was nothing -/
  | missed
  /-- there was a file -/
  | hit (p : Path)
  /-- there was a broken manifest -/
  | broken (fault : ManifestFault)
  deriving DecidableEq

/-- An attempt to find a file. -/
abbrev Attempt : Type := Program Outcome

/-- The path, or a name in it, when there is a file. -/
def fileAt? (p : Path) (name : Option String) : Program (Option Path) := do
  let candidate := (name.map fun n => p.join ⟨n⟩).getD p
  return if ← Program.query (.isFile candidate) then some candidate else none

namespace Attempt

/-- The second attempt is made when the first has missed. -/
def orElse (first second : Attempt) : Attempt := do
  match ← first with
  | .missed => second
  | decided => return decided

/-- The attempts in a row, as far as needed. -/
def firstOf : List Attempt → Attempt
  | [] => .done .missed
  | a :: rest => orElse a (firstOf rest)

/-- Notes that everything so far has missed. -/
def giveUp (kind : StepKind) (detail : String) (path : Option Path) : Attempt := do
  Program.step kind false detail path
  return .missed

/-- Tries one path. -/
def probe (kind : StepKind) (detail : String) (p : Path) : Attempt := do
  if ← Program.query (.isFile p) then
    Program.step kind true detail (some p)
    return .hit p
  else return .missed

end Attempt

end ModuleLookup
