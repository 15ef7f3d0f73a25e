import ModuleLookup.Disk.Program
import ModuleLookup.Lookup.SearchPath
import ModuleLookup.Project.Root

/-!
# Source files

The source files of a project are the files below its root with one of the endings
that were chosen. Directories that hold packages or a repository are passed over,
wherever they are; the root itself never is.
-/

namespace ModuleLookup

/-- The names of directories that are passed over. -/
def skippedDirectories : List String :=
  [packageDirectory, repositoryDirectory]

/-- Whether an entry of a directory is passed over. -/
def isSkipped (name : String) : Outline → Bool
  | .directory _ | .closed _ => skippedDirectories.contains name
  | .file | .other => false

mutual

/-- The files at a path and below it. -/
def filesAt (p : Path) : Outline → List Path
  | .file => [p]
  | .directory entries => filesIn p entries
  | .closed _ | .other => []

/-- The files among the entries of a directory and below them. -/
def filesIn (dir : Path) : List (String × Outline) → List Path
  | [] => []
  | (name, o) :: entries =>
    (if isSkipped name o then [] else filesAt (dir.join ⟨name⟩) o) ++ filesIn dir entries

end

mutual

/-- The directories at a path and below it that cannot be listed. -/
def closedAt (p : Path) : Outline → List (Path × IoFault)
  | .closed fault => [(p, fault)]
  | .directory entries => closedIn p entries
  | .file | .other => []

/-- The directories among the entries of a directory and below them that cannot be
listed. -/
def closedIn (dir : Path) : List (String × Outline) → List (Path × IoFault)
  | [] => []
  | (name, o) :: entries =>
    (if isSkipped name o then [] else closedAt (dir.join ⟨name⟩) o) ++ closedIn dir entries

end

/-- The files with one of the endings, in the order of paths. -/
def sourceFilesAt (root : Path) (exts : List String) (o : Outline) : List Path :=
  ((filesAt root o).filter (·.hasSuffix exts)).mergeSort Path.le

/-- The source files of a project. All directories that are not passed over have to be
listed. -/
def sourceFiles (root : Path) (exts : List String) : Program (Except Error (List Path)) := do
  match ← Program.query (.outline root) with
  | .error fault => return .error (.walkFailed root fault)
  | .ok o =>
    match closedAt root o with
    | (dir, fault) :: _ => return .error (.walkFailed dir fault)
    | [] => return .ok (sourceFilesAt root exts o)

end ModuleLookup
