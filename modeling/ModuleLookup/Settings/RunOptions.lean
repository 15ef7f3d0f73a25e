import ModuleLookup.Json.Record
import ModuleLookup.Path.Basic

/-!
# Options of a run

What one run of the program was told: where it runs, what it prints to its log, and
which settings file it is to use.
-/

namespace ModuleLookup

/-- The options of a run. -/
structure RunOptions where
  /-- the working directory -/
  cwd : Path
  /-- whether the log is written as JSON -/
  jsonLogs : Bool
  /-- how much is logged -/
  verbosity : Nat
  /-- a settings file laid over all others -/
  configFile : Option Path
  deriving DecidableEq

namespace RunOptions

/-- The options of a run in a directory, with nothing asked for. -/
def inDirectory (cwd : Path) : RunOptions :=
  ⟨cwd, false, 0, none⟩

/-- The options with another verbosity. -/
def withVerbosity (options : RunOptions) (verbosity : Nat) : RunOptions :=
  { options with verbosity }

/-- The options with another choice of log. -/
def withJsonLogs (options : RunOptions) (jsonLogs : Bool) : RunOptions :=
  { options with jsonLogs }

/-- The options with another settings file. -/
def withConfigFile (options : RunOptions) (configFile : Option Path) : RunOptions :=
  { options with configFile }

/-- How options are written. All but the settings file have to be given. -/
def schema : Json.Schema RunOptions where
  name := "Config"
  blank := inDirectory ⟨""⟩
  mayEndEarly := false
  fields :=
    [.ofReader "cwd" [] true (Json.textOf "path string")
      fun v options => { options with cwd := ⟨v⟩ },
     .ofReader "json_logs" [] true Json.truth
      fun v options => { options with jsonLogs := v },
     .ofReader "verbosity" [] true (Json.naturalBelow 256 "u8")
      fun v options => { options with verbosity := v },
     .ofReader "config_file" [] false (Json.optional (Json.textOf "path string"))
      fun v options => { options with configFile := v.map Path.mk }]

end RunOptions

end ModuleLookup
