import ModuleLookup.Context
import ModuleLookup.Lookup.Attempt
import ModuleLookup.Lookup.Manifest
import ModuleLookup.Lookup.SearchPath

/-!
# The stages of a lookup

The attempts that a lookup is made of, from the smallest to the largest: a path as a
file, the index of a directory, a directory with or without a manifest, the
directories that hold packages, and the project's own directories.
-/

namespace ModuleLookup

open Attempt

/-- A path as a file: the path itself, then the path with each ending. -/
def asFile (p : Path) (exts : List String) : Attempt :=
  ((probe .file "Exact file exists" p).orElse
    (firstOf (exts.map fun ext =>
      probe .file ("Found with extension: " ++ ext) (p.withSuffix ext)))).orElse
    (giveUp .file "No matching file" (some p))

/-- The index file of a directory with an ending. -/
def indexFile (dir : Path) (ext : String) : Path :=
  dir.join ⟨"index" ++ ext⟩

/-- A directory by its index file, with each ending. -/
def asIndex (dir : Path) (exts : List String) : Attempt :=
  (firstOf (exts.map fun ext =>
    probe .index ("Found index" ++ ext) (indexFile dir ext))).orElse
    (giveUp .index "No index file" (some dir))

/-- A path as a directory. With a manifest only the file that it means is tried, as a
file and then as a directory with an index; without one the directory's own index. -/
def asDirectory (dir : Path) (exts : List String) : Attempt := do
  let manifest := Manifest.ofDirectory dir
  if ← Program.query (.isFile manifest) then
    match ← Manifest.readEntry manifest with
    | .error fault => return .broken fault
    | .ok entry =>
      let main := (dir.join ⟨entry⟩).normalize
      ((asFile main exts).orElse (asIndex main exts)).orElse
        (giveUp .directory ("Manifest entry not found: " ++ entry) (some main))
  else asIndex dir exts

/-- A path as a file, then as a directory. -/
def asEither (p : Path) (exts : List String) : Attempt :=
  (asFile p exts).orElse (asDirectory p exts)

/-- A bare specifier in one directory that holds packages. -/
def inDirectory (spec : String) (exts : List String) (dir : Path) : Attempt :=
  (asEither (dir.join ⟨spec⟩) exts).orElse (giveUp .search "Not found" (some dir))

/-- A bare specifier in every directory that may hold packages. -/
def inPackages (spec : String) (start : Path) (exts : List String) : Attempt := do
  let dirs := searchPath start
  Program.step .searchPath true (toString dirs.length ++ " candidate directories") (some start)
  if isInsidePackages start then
    Program.warn .segmentSkipped
      ("Start directory is inside node_modules; "
        ++ "that segment gets no candidate of its own")
  firstOf (dirs.map (inDirectory spec exts))

/-- A specifier in one of the project's own directories: the path itself, then for
each ending the path with it and the index file with it. -/
def underRoot (spec : String) (projectRoot : Path) (exts : List String) (root : String) :
    Attempt :=
  let base := ((projectRoot.join ⟨root⟩).join ⟨spec⟩).normalize
  let detail := "Found under alias root: " ++ root
  (probe .aliasRoots detail base).orElse
    (firstOf (exts.map fun ext =>
      (probe .aliasRoots detail (base.withSuffix ext)).orElse
        (probe .aliasRoots detail (indexFile base ext))))

/-- A specifier in the project's own directories, in order. -/
def underAliases (spec : String) (projectRoot : Path) (roots exts : List String) : Attempt :=
  (firstOf (roots.map (underRoot spec projectRoot exts))).orElse
    (giveUp .aliasRoots "No alias root matched" none)

end ModuleLookup
