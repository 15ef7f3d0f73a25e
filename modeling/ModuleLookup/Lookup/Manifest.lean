import ModuleLookup.Disk.Program
import ModuleLookup.Json.Printer
import ModuleLookup.Json.Reader

/-!
# Manifests

A directory may hold a manifest that names the file by which the directory is meant.
`Manifest.entry` is what the text of a manifest says; `readEntry` asks for the text.
-/

namespace ModuleLookup

namespace Manifest

/-- The name of manifests. -/
def fileName : String := "package.json"

/-- The file meant when a manifest names none. -/
def defaultEntry : String := "index.js"

/-- What a manifest says about the file that is meant. -/
inductive Entry where
  /-- a name -/
  | named (file : String)
  /-- something that is no text -/
  | odd (v : Json.Value)
  /-- nothing -/
  | absent

/-- The file that is meant. -/
def Entry.file : Entry → String
  | named file => file
  | odd _ => defaultEntry
  | absent => defaultEntry

/-- What the text of a manifest says. -/
def entry (text : String) : Except ManifestCause Entry :=
  match Json.readValue text with
  | .error e => .error (.malformed e)
  | .ok (.object fields) =>
    match (Json.Value.object fields).field? "main" with
    | some (.string file) => .ok (.named file)
    | some v => .ok (.odd v)
    | none => .ok .absent
  | .ok _ => .error (.unusable "expected a JSON object")

/-- The manifest of a directory. -/
def ofDirectory (dir : Path) : Path :=
  dir.join ⟨fileName⟩

/-- What a text that may be missing says; every fault is put down to its manifest. -/
def entryAt (path : Path) (text : Except IoFault String) : Except ManifestFault Entry :=
  match text with
  | .error fault => .error ⟨path, .unreadable fault⟩
  | .ok text => (entry text).mapError fun cause => ⟨path, cause⟩

/-- Reads the file that a manifest means. -/
def readEntry (path : Path) : Program (Except ManifestFault String) := do
  match entryAt path (← Program.query (.readText path)) with
  | .error fault => return .error fault
  | .ok e =>
    match e with
    | .odd v => Program.warn .mainNotString ("Ignoring non-string main field: " ++ v.compact)
    | _ => pure ()
    Program.step .manifest true ("Entry point: " ++ e.file) (some path)
    return .ok e.file

end Manifest

end ModuleLookup
