import ModuleLookup.Settings.RunOptions

/-!
# Arguments

What a run is asked to do, read from its arguments in two steps. `Item.ofArguments`
tells options, their values and plain arguments apart, which takes no knowledge of the
command; `Request.ofArguments` then gives the items to the command they belong to.

Options may stand before the command and behind it; what stands behind it counts when
an option is given on both sides. The first item that is wrong decides how a run
fails, and `--version` before it makes everything behind it irrelevant.
-/

namespace ModuleLookup

/-- What can be asked for. -/
inductive Command where
  /-- the version of the program -/
  | version
  /-- what a specifier means -/
  | resolve (spec : String) (start : Option Path)
  /-- what a specifier means, and how that was found -/
  | explain (spec : String) (start : Option Path)
  /-- what the references in a file mean -/
  | scan (file : Path)
  /-- what is wrong in a project, or in a directory of it -/
  | check (dir : Option Path)
  /-- the settings in effect -/
  | config
  deriving DecidableEq

/-- Options that take a value. -/
inductive ValueOption where
  /-- the working directory -/
  | cwd
  /-- a settings file laid over all others -/
  | config
  /-- where a lookup starts -/
  | start
  deriving DecidableEq

/-- The word for an option. -/
def ValueOption.word : ValueOption → String
  | cwd => "cwd"
  | config => "config"
  | start => "from"

/-- Why arguments make no sense. -/
inductive UsageFault where
  /-- there is no such option here -/
  | unknownOption (option : String)
  /-- the option takes no value -/
  | needlessValue (option : String)
  /-- a value is missing or empty -/
  | missingValue (name : String)
  /-- the option was given before -/
  | repeated (option : String)
  /-- there is no such command -/
  | unknownCommand (name : String)
  /-- the command takes no such argument -/
  | unexpectedArgument (text : String)
  /-- the command needs an argument -/
  | missingArgument (name : String)
  deriving DecidableEq

/-- The wording of a fault. -/
def UsageFault.message : UsageFault → String
  | unknownOption option => "unexpected argument '" ++ option ++ "' found"
  | needlessValue option => "unexpected value for '" ++ option ++ "' found"
  | missingValue name => "a value is required for '" ++ name ++ "' but none was supplied"
  | repeated option => "the argument '" ++ option ++ "' cannot be used multiple times"
  | unknownCommand name => "unrecognized subcommand '" ++ name ++ "'"
  | unexpectedArgument text => "unexpected argument '" ++ text ++ "' found"
  | missingArgument name => "the required argument <" ++ name ++ "> was not provided"

/-! ## Items -/

/-- One thing said by the arguments. -/
inductive Item where
  /-- reports are to be JSON -/
  | json
  /-- more is to be logged -/
  | verbose
  /-- the version is asked for -/
  | version
  /-- an option with its value -/
  | valued (option : ValueOption) (value : String)
  /-- an argument that may name a command -/
  | argument (text : String)
  /-- an argument behind `--` -/
  | literal (text : String)
  /-- something that makes no sense -/
  | faulty (fault : UsageFault)
  deriving DecidableEq

namespace Item

/-- The option without a value that has a name. -/
def switch? : String → Option Item
  | "json" => some json
  | "verbose" => some verbose
  | "version" => some version
  | _ => none

/-- The option with a value that has a name. -/
def valueOption? : String → Option ValueOption
  | "cwd" => some .cwd
  | "config" => some .config
  | "from" => some .start
  | _ => none

/-- An option with its value, which must not be empty. -/
def withValue (option : ValueOption) (value : String) : Item :=
  if value = "" then faulty (.missingValue ("--" ++ option.word)) else valued option value

/-- Whether an argument looks like an option. A dash alone does not. -/
def looksLikeOption (arg : String) : Bool :=
  match arg.toList with
  | '-' :: _ :: _ => true
  | _ => false

/-- A run of short options. -/
def ofShort : List Char → List Item
  | [] => []
  | c :: cs =>
    if c = 'v' then verbose :: ofShort cs
    else if c = 'V' then version :: ofShort cs
    else [faulty (.unknownOption ("-" ++ String.singleton c))]

/-- A long option written with an equals sign. -/
def ofAssignment (name value : String) : Item :=
  match switch? name, valueOption? name with
  | some _, _ => faulty (.needlessValue ("--" ++ name))
  | none, some option => withValue option value
  | none, none => faulty (.unknownOption ("--" ++ name))

/-- What the arguments say, one item after the other. -/
def ofArguments : List String → List Item
  | [] => []
  | arg :: rest =>
    match arg.toList with
    | ['-', '-'] => rest.map literal
    | '-' :: '-' :: body =>
      match body.dropWhile (· ≠ '=') with
      | _ :: value =>
        ofAssignment (String.ofList (body.takeWhile (· ≠ '='))) (String.ofList value)
          :: ofArguments rest
      | [] =>
        match switch? (String.ofList body), valueOption? (String.ofList body) with
        | some item, _ => item :: ofArguments rest
        | none, none => [faulty (.unknownOption arg)]
        | none, some option =>
          match rest with
          | [] => [faulty (.missingValue arg)]
          | value :: others =>
            if looksLikeOption value then [faulty (.missingValue arg)]
            else withValue option value :: ofArguments others
    | '-' :: c :: cs => ofShort (c :: cs) ++ ofArguments rest
    | _ => argument arg :: ofArguments rest

end Item

/-! ## Requests -/

/-- The options given on one side of the command. -/
structure Given where
  /-- reports are to be JSON -/
  json : Bool
  /-- how often more logging was asked for -/
  verbosity : Nat
  /-- the working directory -/
  cwd : Option String
  /-- a settings file -/
  config : Option String
  /-- where a lookup starts -/
  start : Option String
  deriving DecidableEq

namespace Given

/-- No options. -/
def nothing : Given := ⟨false, 0, none, none, none⟩

/-- The value given for an option. -/
def value? (g : Given) : ValueOption → Option String
  | .cwd => g.cwd
  | .config => g.config
  | .start => g.start

/-- The options with a value for one of them. -/
def setValue (g : Given) (value : String) : ValueOption → Given
  | .cwd => { g with cwd := some value }
  | .config => { g with config := some value }
  | .start => { g with start := some value }

/-- The options with one more. Only more logging can be asked for twice. -/
def add (g : Given) : Item → Except UsageFault Given
  | .json => if g.json then .error (.repeated "--json") else .ok { g with json := true }
  | .verbose => .ok { g with verbosity := g.verbosity + 1 }
  | .valued option value =>
    if (g.value? option).isSome then .error (.repeated ("--" ++ option.word))
    else .ok (g.setValue value option)
  | .version => .error (.unknownOption "--version")
  | .argument text => .error (.unexpectedArgument text)
  | .literal text => .error (.unexpectedArgument text)
  | .faulty fault => .error fault

end Given

/-- A command with the options and arguments behind it. -/
structure CommandItems where
  /-- the options -/
  given : Given
  /-- the arguments -/
  arguments : List String
  deriving DecidableEq

namespace CommandItems

/-- The items behind a command. -/
def add (c : CommandItems) : Item → Except UsageFault CommandItems
  | .argument text => .ok { c with arguments := c.arguments ++ [text] }
  | .literal text => .ok { c with arguments := c.arguments ++ [text] }
  | item => do return { c with given := ← c.given.add item }

/-- The items behind a command, put together. -/
def ofItems (items : List Item) : Except UsageFault CommandItems :=
  items.foldlM add ⟨.nothing, []⟩

/-- No argument. -/
def noArguments (c : CommandItems) : Except UsageFault Unit :=
  match c.arguments with
  | [] => .ok ()
  | text :: _ => .error (.unexpectedArgument text)

/-- One argument. -/
def single (c : CommandItems) (name : String) : Except UsageFault String :=
  match c.arguments with
  | [] => .error (.missingArgument name)
  | [text] => .ok text
  | _ :: text :: _ => .error (.unexpectedArgument text)

/-- A path, which must not be empty. -/
def pathOf (name text : String) : Except UsageFault Path :=
  if text = "" then .error (.missingValue name) else .ok ⟨text⟩

/-- No start of a lookup. -/
def noStart (c : CommandItems) : Except UsageFault Unit :=
  match c.given.start with
  | none => .ok ()
  | some _ => .error (.unknownOption "--from")

/-- The command of a name. -/
def command (c : CommandItems) (name : String) : Except UsageFault Command := do
  match name with
  | "version" => do
    c.noStart
    c.noArguments
    return .version
  | "resolve" => return .resolve (← c.single "SPECIFIER") (c.given.start.map Path.mk)
  | "explain" => return .explain (← c.single "SPECIFIER") (c.given.start.map Path.mk)
  | "scan" => do
    c.noStart
    return .scan (← pathOf "FILE" (← c.single "FILE"))
  | "check" => do
    c.noStart
    match c.arguments with
    | [] => return .check none
    | _ => return .check (some (← pathOf "DIR" (← c.single "DIR")))
  | "config" => do
    c.noStart
    c.noArguments
    return .config
  | _ => throw (.unknownCommand name)

end CommandItems

/-- A command with everything it was told. -/
structure Invocation where
  /-- the command -/
  command : Command
  /-- whether reports are JSON -/
  json : Bool
  /-- the options of the run -/
  options : RunOptions
  deriving DecidableEq

/-- What a run is asked to do. -/
inductive Request where
  /-- to show its version -/
  | version
  /-- to carry out a command -/
  | run (invocation : Invocation)
  deriving DecidableEq

namespace Request

/-- What a run is told about its surroundings: the directory it was started in, and
the settings file that the environment names. -/
structure Surroundings where
  /-- the directory it was started in -/
  cwd : Path
  /-- the settings file named by the environment -/
  config : Option String

/-- The settings file of the environment stands in on each side of the command on
which none was given, and must not be empty there. -/
def checkEnvironment (around : Surroundings) (g : Given) : Except UsageFault Unit :=
  if g.config.isNone ∧ around.config = some "" then .error (.missingValue "--config")
  else .ok ()

/-- A command with the options on both sides. Relative settings files are looked for
in the working directory. -/
def combine (around : Surroundings) (before behind : Given) (command : Command) : Invocation :=
  let cwd := ((behind.cwd.or before.cwd).map Path.mk).getD around.cwd
  let config := (behind.config.or before.config).or around.config
  { command
    json := before.json || behind.json
    options := ((RunOptions.inDirectory cwd).withVerbosity
        (min 255 (if behind.verbosity = 0 then before.verbosity else behind.verbosity))
      |>.withJsonLogs (before.json || behind.json)
      |>.withConfigFile (config.map fun file => cwd.join ⟨file⟩)) }

/-- The request made by the items from here on, with the options before them. -/
def ofItems (around : Surroundings) (before : Given) : List Item → Except UsageFault Request
  | [] => do
    checkEnvironment around before
    return .run (combine around before .nothing .version)
  | .version :: _ => .ok .version
  | .argument name :: rest => do
    let c ← CommandItems.ofItems rest
    let command ← c.command name
    checkEnvironment around c.given
    checkEnvironment around before
    return .run (combine around before c.given command)
  | .valued .start _ :: _ => .error (.unknownOption "--from")
  | item :: rest => do ofItems around (← before.add item) rest

/-- What the arguments of a run ask for. -/
def ofArguments (around : Surroundings) (args : List String) : Except UsageFault Request :=
  ofItems around .nothing (Item.ofArguments args)

end Request

end ModuleLookup
