import ModuleLookup.Json.Record

/-!
# Settings

How files are looked for, as far as a project can choose. Settings are built in
layers: each settings file is a `Layer` that may give any of the four lists, and what
it gives replaces what was there.

* `Settings.apply` — one layer; `Settings.applyText` — one settings file's text,
  which changes nothing when it cannot be read.
* `Settings.toJson` — settings as they are printed; a settings file may be written
  like that.
-/

namespace ModuleLookup

/-- The choices of a project. -/
structure Settings where
  /-- endings tried on a path, in order -/
  resolveExtensions : List String
  /-- directories of the project in which bare specifiers may be found -/
  aliasRoots : List String
  /-- endings tried in those directories, if not the same -/
  aliasExtensions : Option (List String)
  /-- endings of the files that are scanned -/
  sourceExtensions : List String
  deriving DecidableEq

namespace Settings

/-- The endings tried when nothing else is chosen. -/
def defaultResolveExtensions : List String :=
  [".js", ".json", ".node"]

/-- The endings of source files when nothing else is chosen. -/
def defaultSourceExtensions : List String :=
  [".js", ".jsx", ".mjs", ".cjs", ".ts", ".tsx"]

/-- The settings of a project that chooses nothing. -/
def default : Settings :=
  ⟨defaultResolveExtensions, [], none, defaultSourceExtensions⟩

/-- What one settings file gives. -/
structure Layer where
  /-- endings tried on a path -/
  resolveExtensions : Option (List String)
  /-- directories for bare specifiers -/
  aliasRoots : Option (List String)
  /-- endings tried in those directories -/
  aliasExtensions : Option (List String)
  /-- endings of source files -/
  sourceExtensions : Option (List String)
  deriving DecidableEq

/-- The layer that gives nothing. -/
def Layer.empty : Layer :=
  ⟨none, none, none, none⟩

/-- How a layer is written. Three of its fields have another name as well, and `null`
gives nothing. -/
def Layer.schema : Json.Schema Layer where
  name := "SettingsLayer"
  blank := .empty
  mayEndEarly := false
  fields :=
    [.ofReader "resolve_extensions" [] false (Json.optional Json.texts)
      fun v layer => { layer with resolveExtensions := v },
     .ofReader "bundler_alias_roots" ["webpack_resolve_modules"] false (Json.optional Json.texts)
      fun v layer => { layer with aliasRoots := v },
     .ofReader "bundler_alias_extensions" ["webpack_resolve_extensions"] false
      (Json.optional Json.texts) fun v layer => { layer with aliasExtensions := v },
     .ofReader "source_extensions" ["extensions"] false (Json.optional Json.texts)
      fun v layer => { layer with sourceExtensions := v }]

/-- How settings are written whole. What is left out has its default. -/
def schema : Json.Schema Settings where
  name := "ResolveSettings"
  blank := default
  mayEndEarly := true
  fields :=
    [.ofReader "resolve_extensions" [] false Json.texts
      fun v settings => { settings with resolveExtensions := v },
     .ofReader "bundler_alias_roots" [] false Json.texts
      fun v settings => { settings with aliasRoots := v },
     .ofReader "bundler_alias_extensions" [] false (Json.optional Json.texts)
      fun v settings => { settings with aliasExtensions := v },
     .ofReader "source_extensions" [] false Json.texts
      fun v settings => { settings with sourceExtensions := v }]

/-- Lays one layer over settings. -/
def apply (settings : Settings) (layer : Layer) : Settings where
  resolveExtensions := layer.resolveExtensions.getD settings.resolveExtensions
  aliasRoots := layer.aliasRoots.getD settings.aliasRoots
  aliasExtensions := layer.aliasExtensions <|> settings.aliasExtensions
  sourceExtensions := layer.sourceExtensions.getD settings.sourceExtensions

/-- Lays the text of a settings file over settings. -/
def applyText (settings : Settings) (text : String) : Except Json.Error Settings := do
  return settings.apply (← Layer.schema.readText text)

/-- Settings as they are printed. -/
def toJson (settings : Settings) : Json.Value :=
  .object
    [("resolve_extensions", .ofStrings settings.resolveExtensions),
     ("bundler_alias_roots", .ofStrings settings.aliasRoots),
     ("bundler_alias_extensions", (settings.aliasExtensions.map .ofStrings).getD .null),
     ("source_extensions", .ofStrings settings.sourceExtensions)]

end Settings

end ModuleLookup
