import ModuleLookup.Lookup.Stages
import ModuleLookup.Specifier

/-!
# Looking up a specifier

`resolve` finds what a specifier means in a directory, by its kind; `find` goes on
to the project's own directories when that found nothing. Both are programs: what
they answer, what they ask and what they record come from the same definition.
-/

namespace ModuleLookup

/-- What a specifier means. -/
inductive Resolved where
  /-- a module of the runtime -/
  | core (name : String)
  /-- a file -/
  | file (p : Path)
  /-- a file in one of the project's own directories -/
  | aliased (p : Path)
  /-- nothing -/
  | notFound
  deriving DecidableEq

namespace Resolved

/-- The file that is meant. -/
def path? : Resolved → Option Path
  | file p => some p
  | aliased p => some p
  | core _ => none
  | notFound => none

/-- Whether anything is meant. -/
def isFound : Resolved → Bool
  | notFound => false
  | _ => true

/-- The word for the result in reports. -/
def status : Resolved → String
  | core _ => "core"
  | file _ => "file"
  | aliased _ => "alias"
  | notFound => "not_found"

end Resolved

/-- Where to read about what a specifier means. Files of a package have the page of
the package; files of the project have none. -/
def docsUrl? (spec : String) : Resolved → Option String
  | .core name => some (coreDocsUrl name)
  | .file _ => if SpecifierKind.of spec = .bare then some (packageUrl spec) else none
  | .aliased _ => none
  | .notFound => none

/-- The end of a lookup, with a note of the file that was hit. -/
def conclude (found : Path → Resolved) (attempt : Attempt) :
    Program (Except ManifestFault Resolved) := do
  match ← attempt with
  | .missed => return .ok .notFound
  | .broken fault => return .error fault
  | .hit p =>
    Program.step .final true "Resolution complete" (some p)
    return .ok (found p)

/-- What a specifier means in a directory. -/
def resolve (ctx : Context) (spec : String) (start : Path) :
    Program (Except ManifestFault Resolved) := do
  if spec = "" then
    Program.step .classify false "Specifier is empty" none
    return .ok .notFound
  else
    let kind := SpecifierKind.of spec
    Program.step .classify true ("Specifier type: " ++ kind.word) none
    match kind with
    | .core =>
      Program.step .core true ("Core module: " ++ spec) none
      return .ok (.core spec)
    | .relative =>
      conclude .file (asEither (start.join ⟨spec⟩).normalize ctx.extensions)
    | .bare => conclude .file (inPackages spec start ctx.extensions)

/-- What a specifier means in a directory, or in the project's own directories when
there are any and it means nothing else. -/
def find (ctx : Context) (spec : String) (start : Path) :
    Program (Except ManifestFault Resolved) := do
  match ← resolve ctx spec start with
  | .ok .notFound =>
    if ctx.hasAliases then
      conclude .aliased (underAliases spec ctx.projectRoot ctx.aliasRoots ctx.aliasExtensions)
    else return .ok .notFound
  | decided => return decided

end ModuleLookup
