import ModuleLookup.Path.Basic

/-!
# Where packages are looked for

A package may be in the `node_modules` directory of the requesting directory or of
any directory around it. The nearest one comes first. A directory that is itself
called `node_modules` is passed over, so no candidate is nested directly in another.
-/

namespace ModuleLookup

/-- The name of the directories that hold packages. -/
def packageDirectory : String := "node_modules"

/-- The candidates for segments given innermost first. -/
def candidatesAbove : List String → List Path
  | [] => []
  | s :: outer =>
    if s = packageDirectory then candidatesAbove outer
    else
      (Path.ofSegments (s :: outer).reverse).join ⟨packageDirectory⟩ :: candidatesAbove outer

/-- The directories in which packages are looked for, nearest first. -/
def searchPath (start : Path) : List Path :=
  candidatesAbove start.split.reverse

/-- Whether a directory lies inside one that holds packages. -/
def isInsidePackages (start : Path) : Bool :=
  start.split.contains packageDirectory

end ModuleLookup
