import ModuleLookup.Error
import ModuleLookup.Json.Printer

/-!
# Output of a run

Every command ends with an `Output`: how the run ended, and what it printed. A report
is printed either as one JSON document or as lines for a person.
-/

namespace ModuleLookup

/-- How a run ended. -/
inductive ExitStatus where
  /-- everything was found -/
  | success
  /-- something was not found -/
  | notFound
  /-- the project or the arguments are broken -/
  | failed
  deriving DecidableEq

/-- The exit code of a run. -/
def ExitStatus.code : ExitStatus → Nat
  | success => 0
  | notFound => 1
  | failed => 2

/-- What a run leaves behind. -/
structure Output where
  /-- how it ended -/
  status : ExitStatus
  /-- what was printed -/
  stdout : String
  /-- what was told beside it -/
  stderr : String
  deriving DecidableEq

/-- Lines, each with its end. -/
def ofLines (lines : List String) : String :=
  "".intercalate (lines.map (· ++ "\n"))

/-- A path in a report. -/
def Path.toJson (p : Path) : Json.Value :=
  .string p.text

/-- An error in a report. -/
def Error.toJson (e : Error) : Json.Value :=
  .object ([("code", .string e.code), ("message", .string e.message)]
    ++ Json.Value.optionalField "path" (e.manifestPath?.map Path.toJson))

namespace Output

/-- A JSON document. -/
def ofJson (status : ExitStatus) (v : Json.Value) : Output :=
  ⟨status, v.pretty ++ "\n", ""⟩

/-- Lines for a person. -/
def ofText (status : ExitStatus) (lines : List String) : Output :=
  ⟨status, ofLines lines, ""⟩

/-- The end of a run that met an error. -/
def ofError (json : Bool) (e : Error) : Output :=
  if json then ofJson .failed (.object [("ok", .bool false), ("error", e.toJson)])
  else ⟨.failed, "", ofLines (["Error: " ++ e.code, e.message]
    ++ (e.manifestPath?.map fun p => "help: fix or remove " ++ p.text).toList)⟩

end Output

end ModuleLookup
