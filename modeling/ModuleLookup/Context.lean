import ModuleLookup.Digest.Parts
import ModuleLookup.Path.Basic
import ModuleLookup.Settings.Basic
import ModuleLookup.Text.Blank
import ModuleLookup.Text.ByteLength
import ModuleLookup.Text.Quoted

/-!
# Contexts

What every lookup of a session shares: the root of the project, the endings to try,
and the directories for bare specifiers. A `Context` can only be built from checked
values, so a bad setting is found before the first lookup and not in the middle of
one.

* `ValidExtension` and `ValidRoot` — what the checks let through;
  `extensionsFault?_eq_none_iff` and `rootsFault?_eq_none_iff` say that they let
  exactly that through.
* `Context.fingerprint` — a digest of everything in a context, for keys of caches.
-/

namespace ModuleLookup

/-- An ending starts with a dot, names something, and stays in its directory. -/
def ValidExtension (ext : String) : Prop :=
  (2 ≤ byteLength ext.toList ∧ ext.toList.head? = some '.') ∧
    ('/' ∉ ext.toList ∧ '\\' ∉ ext.toList)

instance (ext : String) : Decidable (ValidExtension ext) :=
  inferInstanceAs (Decidable (_ ∧ _))

/-- Endings are valid one by one, and there is at least one. -/
def ValidExtensions (exts : List String) : Prop :=
  exts ≠ [] ∧ ∀ ext ∈ exts, ValidExtension ext

instance (exts : List String) : Decidable (ValidExtensions exts) :=
  inferInstanceAs (Decidable (_ ∧ _))

/-- A directory for bare specifiers has a name and lies below the project's root. -/
def ValidRoot (root : String) : Prop :=
  isBlankText root = false ∧ (Path.mk root).isAbsolute = false

instance (root : String) : Decidable (ValidRoot root) :=
  inferInstanceAs (Decidable (_ ∧ _))

/-- The setting that a list of endings comes from. -/
inductive ExtensionField where
  /-- endings tried on every path -/
  | resolve
  /-- endings tried in the directories for bare specifiers -/
  | aliasRoots
  deriving DecidableEq

/-- The name of the setting. -/
def ExtensionField.name : ExtensionField → String
  | resolve => "resolve_extensions"
  | aliasRoots => "bundler_alias_extensions"

/-- What is wrong with a setting. -/
inductive ContextFault where
  /-- no endings at all -/
  | noExtensions (field : ExtensionField)
  /-- an ending that does not start with a dot, or is nothing more -/
  | unnamedExtension (field : ExtensionField) (ext : String)
  /-- an ending that leads to another directory -/
  | separatorInExtension (field : ExtensionField) (ext : String)
  /-- a directory without a name -/
  | emptyRoot (root : String)
  /-- a directory that is not below the project's root -/
  | absoluteRoot (root : String)
  deriving DecidableEq

/-- The wording of a fault. -/
def ContextFault.message : ContextFault → String
  | noExtensions field => field.name ++ " must not be empty"
  | unnamedExtension field ext =>
    field.name ++ ": " ++ quoted ext ++ " must start with '.' and name an extension"
  | separatorInExtension field ext =>
    field.name ++ ": " ++ quoted ext ++ " must not contain a path separator"
  | emptyRoot root => "bundler_alias_roots contains an empty entry: " ++ quoted root
  | absoluteRoot root =>
    "bundler_alias_roots: " ++ quoted root ++ " must be relative to the project root"

/-- What is wrong with one ending. -/
def extensionFault? (field : ExtensionField) (ext : String) : Option ContextFault :=
  if ¬(2 ≤ byteLength ext.toList ∧ ext.toList.head? = some '.') then
    some (.unnamedExtension field ext)
  else if ¬('/' ∉ ext.toList ∧ '\\' ∉ ext.toList) then some (.separatorInExtension field ext)
  else none

/-- What is wrong with a list of endings: the first thing that is. -/
def extensionsFault? (field : ExtensionField) (exts : List String) : Option ContextFault :=
  if exts = [] then some (.noExtensions field) else exts.findSome? (extensionFault? field)

/-- What is wrong with a list of directories. Names are looked at first. -/
def rootsFault? (roots : List String) : Option ContextFault :=
  ((roots.find? fun root => isBlankText root).map ContextFault.emptyRoot).or
    ((roots.find? fun root => (Path.mk root).isAbsolute).map ContextFault.absoluteRoot)

theorem extensionFault?_eq_none_iff {field : ExtensionField} {ext : String} :
    extensionFault? field ext = none ↔ ValidExtension ext := by
  unfold extensionFault? ValidExtension
  by_cases h₁ : 2 ≤ byteLength ext.toList ∧ ext.toList.head? = some '.' <;>
    by_cases h₂ : '/' ∉ ext.toList ∧ '\\' ∉ ext.toList <;> simp [h₁, h₂]

/-- The check of endings lets exactly the valid lists through. -/
theorem extensionsFault?_eq_none_iff {field : ExtensionField} {exts : List String} :
    extensionsFault? field exts = none ↔ ValidExtensions exts := by
  unfold extensionsFault? ValidExtensions
  by_cases h : exts = []
  · simp [h]
  · simp [h, List.findSome?_eq_none_iff, extensionFault?_eq_none_iff]

/-- The check of directories lets exactly the valid lists through. -/
theorem rootsFault?_eq_none_iff {roots : List String} :
    rootsFault? roots = none ↔ ∀ root ∈ roots, ValidRoot root := by
  simp only [rootsFault?, ValidRoot, Option.or_eq_none_iff, Option.map_eq_none_iff,
    List.find?_eq_none, Bool.not_eq_true]
  exact ⟨fun h root hr => ⟨h.1 root hr, h.2 root hr⟩,
    fun h => ⟨fun root hr => (h root hr).1, fun root hr => (h root hr).2⟩⟩

/-- What the lookups of a session share. -/
structure Context where
  /-- the root of the project -/
  projectRoot : Path
  /-- endings tried on every path, in order -/
  extensions : List String
  /-- directories for bare specifiers, in order -/
  aliasRoots : List String
  /-- endings tried in those directories, if not the same -/
  ownAliasExtensions : Option (List String)
  /-- the endings were checked -/
  extensions_valid : ValidExtensions extensions
  /-- the directories were checked -/
  aliasRoots_valid : ∀ root ∈ aliasRoots, ValidRoot root
  /-- the other endings were checked -/
  aliasExtensions_valid : ∀ exts ∈ ownAliasExtensions, ValidExtensions exts

namespace Context

/-- A context without directories for bare specifiers. -/
def new (root : Path) (exts : List String) : Except ContextFault Context :=
  match h : extensionsFault? .resolve exts with
  | some fault => .error fault
  | none => .ok {
      projectRoot := root
      extensions := exts
      aliasRoots := []
      ownAliasExtensions := none
      extensions_valid := extensionsFault?_eq_none_iff.1 h
      aliasRoots_valid := by simp
      aliasExtensions_valid := by simp }

/-- What is wrong with a choice of endings that need not be made. -/
def optionalExtensionsFault? (exts : Option (List String)) : Option ContextFault :=
  exts.bind (extensionsFault? .aliasRoots)

/-- The context with other directories for bare specifiers, and endings for them. -/
def withAliases (ctx : Context) (roots : List String) (exts : Option (List String)) :
    Except ContextFault Context :=
  match h : (rootsFault? roots).or (optionalExtensionsFault? exts) with
  | some fault => .error fault
  | none => .ok {
      ctx with
      aliasRoots := roots
      ownAliasExtensions := exts
      aliasRoots_valid := rootsFault?_eq_none_iff.1 (Option.or_eq_none_iff.1 h).1
      aliasExtensions_valid := by
        rintro es he
        have h := (Option.or_eq_none_iff.1 h).2
        rw [Option.mem_def.1 he] at h
        exact extensionsFault?_eq_none_iff.1 h }

/-- The context that settings describe. -/
def ofSettings (root : Path) (settings : Settings) : Except ContextFault Context := do
  (← new root settings.resolveExtensions).withAliases settings.aliasRoots
    settings.aliasExtensions

/-- The default endings are valid. -/
theorem validExtensions_default : ValidExtensions Settings.defaultResolveExtensions := by
  decide +kernel

/-- The context with the default endings. -/
def withDefaults (root : Path) : Context where
  projectRoot := root
  extensions := Settings.defaultResolveExtensions
  aliasRoots := []
  ownAliasExtensions := none
  extensions_valid := validExtensions_default
  aliasRoots_valid := by simp
  aliasExtensions_valid := by simp

/-- Endings tried in the directories for bare specifiers. -/
def aliasExtensions (ctx : Context) : List String :=
  ctx.ownAliasExtensions.getD ctx.extensions

/-- Whether there are directories for bare specifiers. -/
def hasAliases (ctx : Context) : Bool :=
  !ctx.aliasRoots.isEmpty

/-- Everything in a context as a list of texts, with a tag before each part. -/
def parts (ctx : Context) : List String :=
  ["root", ctx.projectRoot.text, "ext"] ++ ctx.extensions ++ "alias" :: ctx.aliasRoots
    ++ "alias_ext" :: ctx.ownAliasExtensions.getD []

/-- A digest of everything in a context. -/
def fingerprint (ctx : Context) : String :=
  digest ctx.parts

end Context

end ModuleLookup
