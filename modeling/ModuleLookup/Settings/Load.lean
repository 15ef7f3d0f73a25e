import ModuleLookup.Disk.Program
import ModuleLookup.Settings.Basic

/-!
# Where settings come from

The settings of a project are the default ones with up to three files laid over them:
the user's own, the project's, and one that was asked for. The first two may be
missing. Loading stops at the first file that cannot be read.

Which directory a platform has for a user's settings is not for this library to say: it
is given (`UserDirectories`). `Environment` finds it for a platform that goes by
variables.
-/

namespace ModuleLookup

/-- Where the user's own settings may be. -/
structure UserDirectories where
  /-- the directory that holds them, if one was chosen -/
  chosen : Option Path
  /-- the directory that the platform has for the settings of all programs, whatever the platform
  goes by: the result of the library `dirs-next` -/
  platform : Option Path
  deriving DecidableEq

namespace UserDirectories

/-- The directory that holds the user's own settings. -/
def settingsDirectory? (user : UserDirectories) : Option Path :=
  user.chosen.or (user.platform.map (·.join ⟨"reqlink"⟩))

/-- The file that holds the user's own settings. -/
def settingsFile? (user : UserDirectories) : Option Path :=
  user.settingsDirectory?.map (·.join ⟨"config.json"⟩)

end UserDirectories

namespace Settings

/-- The file that holds the settings of a project. -/
def ofProject (root : Path) : Path :=
  root.join ⟨"reqlink.json"⟩

/-- Lays a settings file over settings; none when there is no such file. -/
def applyFile (settings : Settings) (p : Path) : Program (Except Error (Option Settings)) := do
  if ← Program.query (.isFile p) then
    match ← Program.query (.readText p) with
    | .error fault => return .error (.configRead p fault)
    | .ok text => return ((settings.applyText text).mapError (.configParse p)).map some
  else return .ok none

/-- Lays settings files over settings, in order, as far as there are any. -/
def applyFiles (settings : Settings) : List Path → Program (Except Error Settings)
  | [] => return .ok settings
  | p :: ps => do
    match ← settings.applyFile p with
    | .error e => return .error e
    | .ok applied => (applied.getD settings).applyFiles ps

/-- Lays the settings file that was asked for over settings. It must be there. -/
def applyExplicit (settings : Settings) (p : Path) : Program (Except Error Settings) := do
  match ← settings.applyFile p with
  | .error e => return .error e
  | .ok (some applied) => return .ok applied
  | .ok none => return .error (.configRead p (.other "config file does not exist"))

/-- The settings of a project. -/
def load (user : UserDirectories) (root : Path) (explicit : Option Path) :
    Program (Except Error Settings) := do
  match ← default.applyFiles (user.settingsFile?.toList ++ [ofProject root]) with
  | .error e => return .error e
  | .ok settings =>
    match explicit with
    | none => return .ok settings
    | some p => settings.applyExplicit p

/-- The files that settings come from, in the order in which they are laid over each
other. -/
def sources (user : UserDirectories) (root : Path) (explicit : Option Path) :
    Program (List Path) :=
  keepFiles (user.settingsFile?.toList ++ [ofProject root] ++ explicit.toList)
where
  /-- The paths at which there are files. -/
  keepFiles : List Path → Program (List Path)
    | [] => return []
    | p :: ps => do
      let found ← Program.query (.isFile p)
      let rest ← keepFiles ps
      return if found then p :: rest else rest

end Settings

/-! ## A platform -/

/-- The variables that tell where a user's directories are. -/
structure Environment where
  /-- the directory that holds the settings of this program -/
  ownDirectory : Option String
  /-- the directory for the settings of all programs -/
  commonDirectory : Option String
  /-- the user's home -/
  home : Option String
  deriving DecidableEq

namespace Environment

/-- What a platform that goes by these variables has for the settings of all programs. A directory
that was named has to be absolute; without it there is one in the user's home. -/
def platformDirectory? (env : Environment) : Option Path :=
  ((env.commonDirectory.map Path.mk).filter Path.isAbsolute).or
    (env.home.map fun home => (Path.mk home).join ⟨".config"⟩)

/-- The user's directories on such a platform. -/
def directories (env : Environment) : UserDirectories :=
  ⟨env.ownDirectory.map Path.mk, env.platformDirectory?⟩

instance : Coe Environment UserDirectories :=
  ⟨directories⟩

/-- The file that holds the user's own settings there. -/
def settingsFile? (env : Environment) : Option Path :=
  env.directories.settingsFile?

end Environment

end ModuleLookup
