import ModuleLookup.Path.Basic

/-!
# Module specifiers

A specifier is the text in a `require` or an `import`. Its kind decides how it is
looked up and nothing else: every text has exactly one kind.
-/

namespace ModuleLookup

/-- The modules that are part of the runtime. -/
def coreModules : List String :=
  ["assert", "buffer", "child_process", "cluster", "crypto", "dgram", "dns", "domain",
   "events", "fs", "http", "https", "net", "os", "path", "punycode", "querystring",
   "readline", "repl", "stream", "string_decoder", "tls", "tty", "url", "util", "v8", "vm",
   "zlib"]

/-- Whether a specifier names a module of the runtime. -/
def isCore (spec : String) : Bool :=
  coreModules.contains spec

/-- How a specifier is looked up. -/
inductive SpecifierKind where
  /-- a module of the runtime; no file is looked for -/
  | core
  /-- a path: absolute, or one that starts with a dot -/
  | relative
  /-- the name of a package, or of a file in one -/
  | bare
  deriving DecidableEq, Inhabited

/-- The kind of a specifier. -/
def SpecifierKind.of (spec : String) : SpecifierKind :=
  if isCore spec then .core
  else if spec.toList.head? = some '.' ∨ (Path.mk spec).isAbsolute then .relative
  else .bare

/-- The word for a kind in reports. -/
def SpecifierKind.word : SpecifierKind → String
  | core => "core"
  | relative => "relative"
  | bare => "bare"

/-- A text cut at its first slash, which belongs to neither part. -/
def splitAtSlash : List Char → List Char × Option (List Char)
  | [] => ([], none)
  | c :: cs =>
    if c = '/' then ([], some cs)
    else (c :: (splitAtSlash cs).1, (splitAtSlash cs).2)

/-- The package that a bare specifier names, and the file in it. A scope belongs to
the name of the package. -/
def packageAndFile (spec : String) : String × Option String :=
  let (first, rest) := splitAtSlash spec.toList
  match spec.toList.head?, rest with
  | some '@', some rest =>
    match splitAtSlash rest with
    | (second, some file) =>
      (String.ofList (first ++ '/' :: second), some (String.ofList file))
    | (_, none) => (spec, none)
  | some '@', none => (spec, none)
  | _, rest => (String.ofList first, rest.map String.ofList)

/-- The documentation page of a module of the runtime. -/
def coreDocsUrl (name : String) : String :=
  "https://nodejs.org/api/" ++ name ++ ".html"

/-- The registry page of the package that a specifier names. -/
def packageUrl (spec : String) : String :=
  "https://www.npmjs.com/package/" ++ (packageAndFile spec).1

end ModuleLookup
