import ModuleLookup.Project.Check
import ModuleLookup.Report.Output

/-!
# Reports on source files

What the references in one file mean (`Listing`), and what is wrong in all files of a
project (`CheckReport.toJson`).
-/

namespace ModuleLookup

/-- A reference in a report. -/
def Reference.fields (r : Reference) : List (String × Json.Value) :=
  [("raw", .string r.raw),
   ("kind", .string r.kind.word),
   ("line", .ofNat r.line.toNat),
   ("span", .object [("start", .ofNat r.start), ("end", .ofNat r.stop)])]

/-- A text filled up with blanks on its left. -/
def padLeft (width : Nat) (s : String) : String :=
  String.ofList (List.replicate (width - s.length) ' ') ++ s

/-- A text filled up with blanks on its right. -/
def padRight (width : Nat) (s : String) : String :=
  s ++ String.ofList (List.replicate (width - s.length) ' ')

namespace LookedUp

/-- A reference and what it means as a JSON document. -/
def document (l : LookedUp) : Json.Value :=
  match l.result with
  | .ok resolved =>
    .object (l.reference.fields ++ [("status", .string resolved.status)]
      ++ Json.Value.optionalField "path" (resolved.path?.map Path.toJson)
      ++ Json.Value.optionalField "docs_url"
        ((docsUrl? l.reference.raw resolved).map Json.Value.string))
  | .error fault =>
    .object (l.reference.fields ++ [("status", .string "error"),
      ("error", (Error.manifest fault).toJson)])

/-- What a person is told about the meaning of a reference. -/
def target (l : LookedUp) : String :=
  match l.result with
  | .ok (.core _) => "core module"
  | .ok (.file p) => p.text
  | .ok (.aliased p) => p.text
  | .ok .notFound => "NOT FOUND"
  | .error fault => "error: " ++ (Error.manifest fault).message

/-- A reference and what it means as a line for a person. -/
def line (l : LookedUp) : String :=
  padLeft 5 (toString l.reference.line) ++ "  " ++ padRight 20 l.reference.kind.word ++ " "
    ++ l.reference.raw ++ " -> " ++ l.target

/-- Whether a lookup ended without an error. -/
def isOk (l : LookedUp) : Bool :=
  match l.result with
  | .ok _ => true
  | .error _ => false

end LookedUp

/-- What the references in a file mean. -/
structure Listing where
  /-- the file -/
  file : Path
  /-- the references -/
  entries : List LookedUp

namespace Listing

/-- The listing as a JSON document. -/
def document (l : Listing) : Json.Value :=
  .object [("ok", .bool (l.entries.all LookedUp.isOk)),
    ("file", l.file.toJson),
    ("specifiers", .list (l.entries.map LookedUp.document))]

/-- The listing as lines for a person. -/
def lines (l : Listing) : List String :=
  if l.entries.isEmpty then ["No specifiers found in " ++ l.file.text]
  else l.entries.map LookedUp.line

/-- The listing as it is printed. -/
def output (l : Listing) (json : Bool) : Output :=
  if json then .ofJson .success l.document else .ofText .success l.lines

end Listing

namespace Problem

/-- The file that a problem is in. -/
def file : Problem → Path
  | unresolved file _ => file
  | brokenManifest file _ _ => file
  | unreadable file _ => file

/-- The reference that a problem is about. -/
def reference? : Problem → Option Reference
  | unresolved _ r => some r
  | brokenManifest _ r _ => some r
  | unreadable _ _ => none

/-- The word for a problem. -/
def word : Problem → String
  | unresolved _ _ => "unresolved"
  | brokenManifest _ _ _ => "manifest_error"
  | unreadable _ _ => "read_error"

/-- What there is to say about a problem. -/
def message? : Problem → Option String
  | unresolved _ _ => none
  | brokenManifest _ _ fault => some (Error.manifest fault).message
  | unreadable _ fault => some fault.message

/-- A problem as a JSON document. -/
def document (problem : Problem) : Json.Value :=
  .object ([("file", problem.file.toJson)]
    ++ Json.Value.optionalField "line" (problem.reference?.map fun r => .ofNat r.line.toNat)
    ++ Json.Value.optionalField "specifier" (problem.reference?.map fun r => .string r.raw)
    ++ Json.Value.optionalField "import_kind"
      (problem.reference?.map fun r => .string r.kind.word)
    ++ [("kind", .string problem.word)]
    ++ Json.Value.optionalField "message" (problem.message?.map Json.Value.string))

/-- A problem as a line for a person. Files are told as they lie below `root`. -/
def line (root : Path) (problem : Problem) : String :=
  let file := ((root.below? problem.file).getD problem.file).text
  match problem with
  | unresolved _ r => file ++ ":" ++ toString r.line ++ ": cannot resolve '" ++ r.raw ++ "'"
  | brokenManifest _ r fault =>
    file ++ ":" ++ toString r.line ++ ": '" ++ r.raw ++ "': " ++ (Error.manifest fault).message
  | unreadable _ fault => file ++ ": unreadable: " ++ fault.message

end Problem

namespace CheckReport

/-- The report as a JSON document. -/
def document (report : CheckReport) : Json.Value :=
  .object [("root", report.root.toJson),
    ("files_scanned", .ofNat report.filesScanned),
    ("specifiers", .ofNat report.specifiers),
    ("problems", .list (report.problems.map Problem.document))]

/-- The numbers at the end of a report. -/
def counts (report : CheckReport) : String :=
  toString report.specifiers ++ " specifiers in " ++ toString report.filesScanned ++ " files"

/-- The report as lines for a person. -/
def lines (report : CheckReport) : List String :=
  report.problems.map (Problem.line report.root)
    ++ [if report.ok then "OK: " ++ report.counts
        else toString report.problems.length ++ " problems (" ++ report.counts ++ ")"]

/-- How a run ends with a report. -/
def status (report : CheckReport) : ExitStatus :=
  if report.ok then .success else .notFound

/-- The report as it is printed. -/
def output (report : CheckReport) (json : Bool) : Output :=
  if json then .ofJson report.status report.document else .ofText report.status report.lines

end CheckReport

end ModuleLookup
