import ModuleLookup.CommandLine.Arguments
import ModuleLookup.Context
import ModuleLookup.Project.Root
import ModuleLookup.Report.Listing
import ModuleLookup.Report.Lookup
import ModuleLookup.Report.Project
import ModuleLookup.Settings.Load

/-!
# Running a command

Every command but `version` starts by loading the project around the working
directory; when that fails the run ends with the error. A whole run is a program like
any lookup, so it can be carried out on a disk in memory as well as on a real one.
-/

namespace ModuleLookup

/-- A project as a command sees it. -/
structure Project where
  /-- the root of the project -/
  root : Path
  /-- the settings in effect -/
  settings : Settings
  /-- the context of its lookups -/
  context : Context

/-- Loads the project around the working directory. -/
def Project.load (user : UserDirectories) (options : RunOptions) :
    Program (Except Error Project) := do
  let root ← projectRoot options.cwd
  match ← Settings.load user root options.configFile with
  | .error e => return .error e
  | .ok settings =>
    match Context.ofSettings root settings with
    | .error fault => return .error (.invalidConfig fault.message)
    | .ok context => return .ok ⟨root, settings, context⟩

/-- The directory in which a lookup starts: where it was asked to start, or the
directory of the file that was named. -/
def startDirectory (cwd : Path) : Option Path → Program Path
  | none => return cwd
  | some start => do
    if ← Program.query (.isFile (cwd.join start)) then
      return (cwd.join start).parent?.getD cwd
    else return cwd.join start

namespace Project

/-- Looks up a specifier. -/
def lookUp (project : Project) (cwd : Path) (spec : String) (start : Option Path) :
    Program LookupReport := do
  let start ← startDirectory cwd start
  let result ← find project.context spec start
  return ⟨spec, start, project.context.hasAliases, result⟩

/-- Looks up a specifier and keeps the record. -/
def explain (project : Project) (cwd : Path) (spec : String) (start : Option Path) :
    Program Explanation := do
  let start ← startDirectory cwd start
  let (result, trace) ← (find project.context spec start).withTrace .empty
  return ⟨spec, start, result, trace⟩

/-- Looks up the references in a file. -/
def list (project : Project) (cwd file : Path) : Program (Except Error Listing) := do
  let file := cwd.join file
  match ← readSource file with
  | .error fault => return .error (.io fault)
  | .ok source =>
    let (entries, _) ←
      lookUpAll project.context (file.parent?.getD cwd) (some .empty) (references source)
    return .ok ⟨file, entries⟩

/-- Checks the project, or a directory of it. -/
def check (project : Project) (cwd : Path) (dir : Option Path) :
    Program (Except Error CheckReport) :=
  ModuleLookup.check project.context ((dir.map cwd.join).getD project.root)
    project.settings.sourceExtensions

/-- The settings in effect. -/
def report (project : Project) (user : UserDirectories) (options : RunOptions) :
    Program SettingsReport := do
  let sources ← Settings.sources user project.root options.configFile
  return ⟨project.root, sources, project.settings, project.context.fingerprint⟩

end Project

namespace Invocation

/-- Prints a report, or the error that took its place. -/
def present {α : Type} (json : Bool) (print : α → Bool → Output) : Except Error α → Output
  | .ok report => print report json
  | .error e => .ofError json e

/-- Carries out a command in a project. -/
def runIn (i : Invocation) (user : UserDirectories) (project : Project) : Program Output :=
  match i.command with
  | .version => return Version.output i.json
  | .resolve spec start => do
    return (← project.lookUp i.options.cwd spec start).output i.json
  | .explain spec start => do
    return (← project.explain i.options.cwd spec start).output i.json
  | .scan file => do
    return present i.json Listing.output (← project.list i.options.cwd file)
  | .check dir => do
    return present i.json CheckReport.output (← project.check i.options.cwd dir)
  | .config => do return (← project.report user i.options).output i.json

/-- Carries out a command. -/
def run (i : Invocation) (user : UserDirectories) : Program Output :=
  match i.command with
  | .version => return Version.output i.json
  | _ => do
    match ← Project.load user i.options with
    | .error e => return .ofError i.json e
    | .ok project => i.runIn user project

end Invocation

/-- Carries out what the arguments of a run ask for. -/
def runArguments (user : UserDirectories) (around : Request.Surroundings) (args : List String) :
    Program Output :=
  match Request.ofArguments around args with
  | .error fault => return ⟨.failed, "", ofLines ["error: " ++ fault.message]⟩
  | .ok .version => return .ofText .success [Version.programName ++ " " ++ Version.number]
  | .ok (.run i) => i.run user

end ModuleLookup
