import ModuleLookup.Report.Output
import ModuleLookup.Settings.Basic

/-!
# Reports on a project and on the program

The settings in effect with the files they come from, and the version of the program.
-/

namespace ModuleLookup

/-- The settings in effect. -/
structure SettingsReport where
  /-- the root of the project -/
  root : Path
  /-- the files that the settings come from -/
  sources : List Path
  /-- the settings -/
  settings : Settings
  /-- the fingerprint of their context -/
  fingerprint : String

namespace SettingsReport

/-- The report as a JSON document. -/
def document (report : SettingsReport) : Json.Value :=
  .object [("ok", .bool true),
    ("project_root", report.root.toJson),
    ("sources", .list (report.sources.map Path.toJson)),
    ("settings", report.settings.toJson),
    ("fingerprint", .string report.fingerprint)]

/-- Texts on one line, or another text when there are none. -/
def spaced (texts : List String) (otherwise : String) : String :=
  if texts.isEmpty then otherwise else " ".intercalate texts

/-- The report as lines for a person. -/
def lines (report : SettingsReport) : List String :=
  [("Project root: " ++ report.root.text)]
  ++ (if report.sources.isEmpty then ["Sources: (defaults only)"]
      else "Sources:" :: report.sources.map fun p => "  - " ++ p.text)
  ++ ["",
    "resolve_extensions:       " ++ spaced report.settings.resolveExtensions "",
    "bundler_alias_roots:      " ++ spaced report.settings.aliasRoots "(none)",
    "bundler_alias_extensions: "
      ++ (report.settings.aliasExtensions.map (spaced · "")).getD "(resolve_extensions)",
    "source_extensions:        " ++ spaced report.settings.sourceExtensions ""]

/-- The report as it is printed. -/
def output (report : SettingsReport) (json : Bool) : Output :=
  if json then .ofJson .success report.document else .ofText .success report.lines

end SettingsReport

namespace Version

/-- The name of the program. -/
def programName : String := "reqlink"

/-- The version of the program. -/
def number : String := "0.1.0"

/-- The version of the JSON documents that are printed. -/
def schema : Nat := 1

/-- The version in one line. -/
def text : String :=
  programName ++ " " ++ number ++ " (json schema " ++ toString schema ++ ")"

/-- The version as a JSON document. -/
def document : Json.Value :=
  .object [("ok", .bool true), ("version", .string number), ("schema_version", .ofNat schema)]

/-- The version as it is printed. -/
def output (json : Bool) : Output :=
  if json then .ofJson .success document else .ofText .success [text]

end Version

end ModuleLookup
