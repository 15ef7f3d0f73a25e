import ModuleLookup.Cache.Basic
import ModuleLookup.Project.SourceFiles
import ModuleLookup.Source.Reference
import ModuleLookup.Text.Utf8

/-!
# Checking a project

Every source file of a project is read, and every reference in it is looked up from
the directory of the file. What cannot be found is a `Problem`; so is a broken
manifest on the way, and a source file that cannot be read. All lookups of a check
share one cache.
-/

namespace ModuleLookup

/-- The text of a source file. Malformed bytes are no fault. -/
def readSource (file : Path) : Program (Except IoFault String) := do
  return (← Program.query (.readBytes file)).map decodeLossy

/-- What a reference means, or the broken manifest that was met. -/
structure LookedUp where
  /-- the reference -/
  reference : Reference
  /-- what it means -/
  result : Except ManifestFault Resolved

/-- Looks up references from one directory through a cache. -/
def lookUpAll (ctx : Context) (start : Path) :
    Option Cache → List Reference → Program (List LookedUp × Option Cache)
  | cache, [] => return ([], cache)
  | cache, r :: rs => do
    let (result, cache) ← findCached ctx cache r.raw start
    let (rest, cache) ← lookUpAll ctx start cache rs
    return (⟨r, result⟩ :: rest, cache)

/-- Something wrong in a project. -/
inductive Problem where
  /-- a reference that means nothing -/
  | unresolved (file : Path) (reference : Reference)
  /-- a reference that leads to a broken manifest -/
  | brokenManifest (file : Path) (reference : Reference) (fault : ManifestFault)
  /-- a source file that cannot be read -/
  | unreadable (file : Path) (fault : IoFault)
  deriving DecidableEq

/-- What is wrong with a reference. -/
def LookedUp.problem? (file : Path) (l : LookedUp) : Option Problem :=
  match l.result with
  | .ok .notFound => some (.unresolved file l.reference)
  | .ok _ => none
  | .error fault => some (.brokenManifest file l.reference fault)

/-- What a check finds in one file. -/
structure FileReport where
  /-- the number of references -/
  specifiers : Nat
  /-- what is wrong -/
  problems : List Problem
  deriving DecidableEq

/-- The directory from which the references in a file are looked up. -/
def startOf (file : Path) : Path :=
  file.parent?.getD ⟨"."⟩

/-- Checks one file. -/
def checkFile (ctx : Context) (cache : Option Cache) (file : Path) :
    Program (FileReport × Option Cache) := do
  match ← readSource file with
  | .error fault => return (⟨0, [.unreadable file fault]⟩, cache)
  | .ok source =>
    let found := references source
    let (all, cache) ← lookUpAll ctx (startOf file) cache found
    return (⟨found.length, all.filterMap (LookedUp.problem? file)⟩, cache)

/-- Checks files, one after the other. -/
def checkFiles (ctx : Context) : Option Cache → List Path → Program (List FileReport)
  | _, [] => return []
  | cache, file :: files => do
    let (report, cache) ← checkFile ctx cache file
    return report :: (← checkFiles ctx cache files)

/-- What a check finds in a project. -/
structure CheckReport where
  /-- the root of what was checked -/
  root : Path
  /-- the number of source files -/
  filesScanned : Nat
  /-- the number of references in them -/
  specifiers : Nat
  /-- what is wrong, by file and place -/
  problems : List Problem
  deriving DecidableEq

/-- The number of references in several files. -/
def countSpecifiers : List FileReport → Nat
  | [] => 0
  | report :: reports => report.specifiers + countSpecifiers reports

namespace CheckReport

/-- Whether nothing is wrong. -/
def ok (report : CheckReport) : Bool :=
  report.problems.isEmpty

/-- The reports on files put together. -/
def ofFiles (root : Path) (reports : List FileReport) : CheckReport where
  root := root
  filesScanned := reports.length
  specifiers := countSpecifiers reports
  problems := reports.flatMap FileReport.problems

end CheckReport

/-- Checks every source file of a project. -/
def check (ctx : Context) (root : Path) (exts : List String) :
    Program (Except Error CheckReport) := do
  match ← sourceFiles root exts with
  | .error e => return .error e
  | .ok files => return .ok (.ofFiles root (← checkFiles ctx (some .empty) files))

end ModuleLookup
