import ModuleLookup.Lookup.Find
import ModuleLookup.Report.Output

/-!
# Reports on one lookup

What a specifier means, told shortly (`LookupReport`) or with everything that was done
to find out (`Explanation`). Both are built from the same result, and both end a run
in the same way.
-/

namespace ModuleLookup

/-- How a run ends with the result of a lookup. -/
def exitOf : Except ManifestFault Resolved → ExitStatus
  | .ok resolved => if resolved.isFound then .success else .notFound
  | .error _ => .failed

/-- What is meant, as a text: a file, or a module of the runtime. -/
def Resolved.target? : Resolved → Option String
  | core name => some name
  | file p => some p.text
  | aliased p => some p.text
  | notFound => none

/-- What a specifier means. -/
structure LookupReport where
  /-- the specifier -/
  specifier : String
  /-- the directory in which it was looked up -/
  start : Path
  /-- whether the project has its own directories for bare specifiers -/
  hasAliases : Bool
  /-- what it means -/
  result : Except ManifestFault Resolved

namespace LookupReport

/-- The report on a result as a JSON document. -/
def document (report : LookupReport) (resolved : Resolved) : Json.Value :=
  .object ([("ok", .bool resolved.isFound),
      ("specifier", .string report.specifier),
      ("from", report.start.toJson),
      ("kind", .string (SpecifierKind.of report.specifier).word),
      ("status", .string resolved.status)]
    ++ Json.Value.optionalField "path" (resolved.path?.map Path.toJson)
    ++ Json.Value.optionalField "docs_url"
      ((docsUrl? report.specifier resolved).map Json.Value.string))

/-- What a person is told about something that was found. -/
def lines : Resolved → List String
  | .core name => [name ++ " (core module)"]
  | .file p => [p.text]
  | .aliased p => [p.text ++ " (alias)"]
  | .notFound => []

/-- What a person is told beside it about something that was not found. -/
def complaint (report : LookupReport) : Resolved → List String
  | .notFound =>
    ("Cannot find module '" ++ report.specifier ++ "' from " ++ report.start.text)
      :: (if ¬report.hasAliases ∧ SpecifierKind.of report.specifier = .bare then
          ["hint: set bundler_alias_roots in reqlink.json if this is a project-relative import"]
        else [])
  | _ => []

/-- The report as it is printed. -/
def output (report : LookupReport) (json : Bool) : Output :=
  match report.result with
  | .error fault => .ofError json (.manifest fault)
  | .ok resolved =>
    if json then .ofJson (exitOf report.result) (report.document resolved)
    else ⟨exitOf report.result, ofLines (lines resolved), ofLines (report.complaint resolved)⟩

end LookupReport

/-- A stage in a report. -/
def Step.toJson (s : Step) : Json.Value :=
  .object ([("step", .string s.kind.word), ("ok", .bool s.ok), ("detail", .string s.detail)]
    ++ Json.Value.optionalField "path" (s.path.map Path.toJson))

/-- An oddity in a report. -/
def Warning.toJson (w : Warning) : Json.Value :=
  .object [("code", .string w.kind.word), ("message", .string w.message)]

/-- What a specifier means, and how that was found. -/
structure Explanation where
  /-- the specifier -/
  specifier : String
  /-- the directory in which it was looked up -/
  start : Path
  /-- what it means -/
  result : Except ManifestFault Resolved
  /-- the record of the lookup -/
  trace : Trace

namespace Explanation

/-- What is meant. -/
def target? (e : Explanation) : Option String :=
  match e.result with
  | .ok resolved => resolved.target?
  | .error _ => none

/-- The error that ended the lookup. -/
def error? (e : Explanation) : Option Error :=
  match e.result with
  | .ok _ => none
  | .error fault => some (.manifest fault)

/-- The word for the result. -/
def status (e : Explanation) : String :=
  match e.result with
  | .ok resolved => resolved.status
  | .error _ => "error"

/-- The explanation as a JSON document. -/
def document (e : Explanation) : Json.Value :=
  .object ([("ok", .bool e.target?.isSome),
      ("specifier", .string e.specifier),
      ("from", e.start.toJson),
      ("kind", .string (SpecifierKind.of e.specifier).word),
      ("status", .string e.status)]
    ++ Json.Value.optionalField "resolved" (e.target?.map Json.Value.string)
    ++ [("trace", .list (e.trace.steps.map Step.toJson)),
      ("warnings", .list (e.trace.warnings.map Warning.toJson)),
      ("tried", .list (e.trace.tried.map Path.toJson)),
      ("tried_truncated", .bool e.trace.truncated)]
    ++ Json.Value.optionalField "error" (e.error?.map Error.toJson))

/-- The lines about the result. -/
def resultLines (e : Explanation) : List String :=
  match e.target? with
  | some target => ["Resolved: " ++ target ++ " (" ++ e.status ++ ")"]
  | none =>
    "Status: UNRESOLVED" ::
      match e.error? with
      | some error => ["Error: " ++ error.code, "Message: " ++ error.message]
      | none => []

/-- The lines about a stage, the first of which bears a number. -/
def stepLines (s : Step) (number : Nat) : List String :=
  ("  " ++ toString number ++ ". [" ++ (if s.ok then "OK" else "FAIL") ++ "] " ++ s.kind.word
      ++ ": " ++ s.detail)
    :: (s.path.map fun p => "      path: " ++ p.text).toList

/-- The lines about oddities. -/
def warningLines (e : Explanation) : List String :=
  if e.trace.warnings = [] then []
  else
    ["", "Warnings:"]
      ++ e.trace.warnings.map fun w => "  [" ++ w.kind.word ++ "] " ++ w.message

/-- The lines about tried paths. They matter only when nothing was found. -/
def triedLines (e : Explanation) : List String :=
  if e.trace.tried = [] ∨ e.target?.isSome then []
  else
    ["", "Tried paths:"] ++ e.trace.tried.map (fun p => "  - " ++ p.text)
      ++ if e.trace.truncated then ["  ..."] else []

/-- The explanation as lines for a person. -/
def lines (e : Explanation) : List String :=
  ["Specifier: " ++ e.specifier,
    "Kind: " ++ (SpecifierKind.of e.specifier).word,
    "From: " ++ e.start.text,
    ""]
  ++ e.resultLines
  ++ ["", "Resolution trace:"]
  ++ (e.trace.steps.zipIdx 1).flatMap (fun s => stepLines s.1 s.2)
  ++ e.warningLines
  ++ e.triedLines

/-- The explanation as it is printed. -/
def output (e : Explanation) (json : Bool) : Output :=
  if json then .ofJson (exitOf e.result) e.document else .ofText (exitOf e.result) e.lines

end Explanation

end ModuleLookup
