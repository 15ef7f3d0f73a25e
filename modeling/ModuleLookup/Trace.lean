import ModuleLookup.Path.Basic

/-!
# Traces

The record of a lookup: the stages it went through, what was odd on the way, and the
paths that were tried. Only the first paths are kept, and an oddity is told once.
-/

namespace ModuleLookup

/-- The stages of a lookup. -/
inductive StepKind where
  /-- the kind of the specifier -/
  | classify
  /-- a module of the runtime -/
  | core
  /-- a path as a file -/
  | file
  /-- a path as a directory -/
  | directory
  /-- the manifest of a directory -/
  | manifest
  /-- the index file of a directory -/
  | index
  /-- the directories that hold packages -/
  | searchPath
  /-- one directory that holds packages -/
  | search
  /-- the project's own directories for bare specifiers -/
  | aliasRoots
  /-- the end of a lookup that found something -/
  | final
  deriving DecidableEq

/-- The word for a stage. -/
def StepKind.word : StepKind → String
  | classify => "classify_specifier"
  | core => "core_module"
  | file => "load_as_file"
  | directory => "load_as_directory"
  | manifest => "read_manifest"
  | index => "load_index"
  | searchPath => "node_modules_paths"
  | search => "search_node_modules"
  | aliasRoots => "resolve_alias"
  | final => "final_path"

/-- One stage as it was gone through. -/
structure Step where
  /-- which stage -/
  kind : StepKind
  /-- whether it led on -/
  ok : Bool
  /-- what happened -/
  detail : String
  /-- the path it was about -/
  path : Option Path
  deriving DecidableEq

/-- Oddities that do not stop a lookup. -/
inductive WarningKind where
  /-- a manifest names its entry by something that is no text -/
  | mainNotString
  /-- the lookup started inside a directory that holds packages -/
  | segmentSkipped
  deriving DecidableEq

/-- The word for an oddity. -/
def WarningKind.word : WarningKind → String
  | mainNotString => "main_not_string"
  | segmentSkipped => "node_modules_segment_skipped"

/-- An oddity, and what there is to say about it. -/
structure Warning where
  /-- which oddity -/
  kind : WarningKind
  /-- what there is to say -/
  message : String
  deriving DecidableEq

/-- The record of a lookup. -/
structure Trace where
  /-- the stages, in order -/
  steps : List Step
  /-- the oddities, in order, each once -/
  warnings : List Warning
  /-- the first paths that were tried, in order -/
  tried : List Path
  /-- whether more paths were tried than are kept -/
  truncated : Bool
  deriving DecidableEq

namespace Trace

/-- The record before anything happened. -/
def empty : Trace :=
  ⟨[], [], [], false⟩

/-- The number of tried paths that are kept. -/
def capacity : Nat := 64

/-- The record with one more stage. -/
def addStep (t : Trace) (s : Step) : Trace :=
  { t with steps := t.steps ++ [s] }

/-- The record with one more oddity, unless it was told before. -/
def addWarning (t : Trace) (w : Warning) : Trace :=
  if w ∈ t.warnings then t else { t with warnings := t.warnings ++ [w] }

/-- The record with one more tried path. -/
def addTried (t : Trace) (p : Path) : Trace :=
  if t.tried.length < capacity then { t with tried := t.tried ++ [p] }
  else { t with truncated := true }

end Trace

end ModuleLookup
