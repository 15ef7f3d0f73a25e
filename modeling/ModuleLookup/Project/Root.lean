import ModuleLookup.Disk.Program
import ModuleLookup.Lookup.Manifest
import ModuleLookup.Path.Parent

/-!
# The root of a project

A directory belongs to the nearest project around it: the first directory, going
outwards, that holds a manifest or a repository.
-/

namespace ModuleLookup

/-- The name of the directory that holds a repository. -/
def repositoryDirectory : String := ".git"

/-- Whether a directory is the root of a project. -/
def isProjectRoot (dir : Path) : Program Bool := do
  if ← Program.query (.present (Manifest.ofDirectory dir)) then return true
  else Program.query (.present (dir.join ⟨repositoryDirectory⟩))

/-- The first directory that is the root of a project. -/
def firstProjectRoot? : List Path → Program (Option Path)
  | [] => return none
  | dir :: outer => do
    if ← isProjectRoot dir then return some dir
    else firstProjectRoot? outer

/-- The root of the project around a directory. -/
def projectRoot? (cwd : Path) : Program (Option Path) :=
  firstProjectRoot? cwd.ancestors

/-- The root of the project around a directory, or else the directory. -/
def projectRoot (cwd : Path) : Program Path := do
  return (← projectRoot? cwd).getD cwd

end ModuleLookup
