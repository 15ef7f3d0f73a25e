import ModuleLookup.Json.Fault
import ModuleLookup.Path.Basic

/-!
# Errors

What can be wrong with a project or its configuration. A module that cannot be found
is not an error. Every error is a cause with what it is about; its wording is
`Error.message`, and `Error.code` is its short name for programs.
-/

namespace ModuleLookup

/-- Why a file could not be used. -/
inductive IoFault where
  /-- there is no such file -/
  | notFound
  /-- a directory was expected on the way -/
  | notDirectory
  /-- a file was expected -/
  | isDirectory
  /-- something is there where a directory was to be made -/
  | alreadyThere
  /-- a name is too long -/
  | nameTooLong
  /-- a name contains a zero byte -/
  | nameWithNul
  /-- the bytes of the file are no text -/
  | notUtf8
  /-- anything else, in the words of whoever found it -/
  | other (reason : String)
  deriving DecidableEq

/-- The wording of an input fault. -/
def IoFault.message : IoFault → String
  | notFound => "No such file or directory (os error 2)"
  | notDirectory => "Not a directory (os error 20)"
  | isDirectory => "Is a directory (os error 21)"
  | alreadyThere => "File exists (os error 17)"
  | nameTooLong => "File name too long (os error 36)"
  | nameWithNul => "file name contained an unexpected NUL byte"
  | notUtf8 => "stream did not contain valid UTF-8"
  | other reason => reason

/-- What is wrong with a manifest. -/
inductive ManifestCause where
  /-- it could not be read -/
  | unreadable (fault : IoFault)
  /-- it is no JSON text -/
  | malformed (error : Json.Error)
  /-- it is a JSON text that says nothing about a package -/
  | unusable (reason : String)
  deriving DecidableEq

/-- A manifest with something wrong. -/
structure ManifestFault where
  /-- the manifest -/
  path : Path
  /-- what is wrong with it -/
  cause : ManifestCause
  deriving DecidableEq

/-- What is wrong with a project or its configuration. -/
inductive Error where
  /-- a file could not be used -/
  | io (fault : IoFault)
  /-- a settings file could not be read -/
  | configRead (path : Path) (fault : IoFault)
  /-- a settings file is malformed -/
  | configParse (path : Path) (error : Json.Error)
  /-- the settings contradict themselves -/
  | invalidConfig (reason : String)
  /-- a manifest is broken -/
  | manifest (fault : ManifestFault)
  /-- anything else -/
  | other (reason : String)
  deriving DecidableEq

namespace Error

/-- The wording of an error. -/
def message : Error → String
  | io fault => "IO error: " ++ fault.message
  | configRead path fault => "Failed to read config at " ++ path.text ++ ": " ++ fault.message
  | configParse path error => "Failed to parse config at " ++ path.text ++ ": " ++ error.message
  | invalidConfig reason => "Invalid configuration: " ++ reason
  | manifest ⟨path, .unreadable fault⟩ =>
    "Failed to read manifest at " ++ path.text ++ ": " ++ fault.message
  | manifest ⟨path, .malformed error⟩ =>
    "Failed to parse manifest at " ++ path.text ++ ": " ++ error.message
  | manifest ⟨path, .unusable reason⟩ =>
    "Invalid manifest at " ++ path.text ++ ": " ++ reason
  | other reason => reason

/-- The short name of an error. -/
def code : Error → String
  | io _ => "IO_ERROR"
  | configRead _ _ => "CONFIG_READ"
  | configParse _ _ => "CONFIG_PARSE"
  | invalidConfig _ => "INVALID_CONFIGURATION"
  | manifest ⟨_, .unreadable _⟩ => "MANIFEST_READ"
  | manifest ⟨_, .malformed _⟩ => "MANIFEST_PARSE"
  | manifest ⟨_, .unusable _⟩ => "MANIFEST_INVALID"
  | other _ => "OTHER"

/-- The manifest that an error is about. -/
def manifestPath? : Error → Option Path
  | manifest fault => some fault.path
  | _ => none

/-- A directory could not be listed. -/
def walkFailed (dir : Path) (fault : IoFault) : Error :=
  .other ("Failed to walk directory: IO error for operation on " ++ dir.text ++ ": "
    ++ fault.message)

end Error

end ModuleLookup
