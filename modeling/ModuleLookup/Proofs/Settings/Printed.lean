import ModuleLookup.Disk.Memory
import ModuleLookup.Proofs.Json.Printing
import ModuleLookup.Proofs.Settings.Layering

/-!
# Printed settings

Settings are printed as an object with all four of them. There are two readers for it: one for
settings as a whole, and one for the layer of a settings file, to which endings that are `null`
give nothing. Both get back what was printed.

* `readText_toJson` — the settings as a whole.
* `readText_layer_toJson`, `applyText_toJson` — the layer, and what it makes of other settings.
* `run_load_printed` — the settings that were loaded, printed to a file that is then asked for.
* `run_config_prints` — what the command that shows the settings prints for them.
* `printed_readBack` — all of this together.
-/

namespace ModuleLookup

open Json (Member Schema Value)

namespace Settings

/-! ## The whole settings -/

/-- The members of printed settings, for a reader of whole settings. -/
def members (s : Settings) (depth : Nat) : List (Member Settings) :=
  [⟨"resolve_extensions", (Value.ofStrings s.resolveExtensions).prettyAt depth,
      fun settings => { settings with resolveExtensions := s.resolveExtensions }⟩,
   ⟨"bundler_alias_roots", (Value.ofStrings s.aliasRoots).prettyAt depth,
      fun settings => { settings with aliasRoots := s.aliasRoots }⟩,
   ⟨"bundler_alias_extensions",
      ((s.aliasExtensions.map Value.ofStrings).getD .null).prettyAt depth,
      fun settings => { settings with aliasExtensions := s.aliasExtensions }⟩,
   ⟨"source_extensions", (Value.ofStrings s.sourceExtensions).prettyAt depth,
      fun settings => { settings with sourceExtensions := s.sourceExtensions }⟩]

theorem knows_members (s : Settings) (depth : Nat) : ∀ m ∈ s.members depth, schema.Knows m := by
  have htexts (ss : List String) := Json.takes_texts depth ss
  have hoptional := Json.takes_optional_texts depth s.aliasExtensions
  rw [members, List.forall_mem_cons, List.forall_mem_cons, List.forall_mem_cons,
    List.forall_mem_singleton]
  exact ⟨⟨_, rfl, rfl, (htexts _).field _ _ _ _⟩, ⟨_, rfl, rfl, (htexts _).field _ _ _ _⟩,
    ⟨_, rfl, rfl, hoptional.field _ _ _ _⟩, ⟨_, rfl, rfl, (htexts _).field _ _ _ _⟩⟩

theorem complete_schema (names : List String) : schema.Complete names := by
  intro f hf hrequired
  simp only [schema, List.mem_cons, List.not_mem_nil, or_false] at hf
  rcases hf with rfl | rfl | rfl | rfl <;> cases hrequired

/-- **Printed settings are read back** as a whole. -/
theorem readText_toJson (s : Settings) (depth : Nat) :
    schema.readText (s.toJson.prettyAt depth) = .ok s :=
  Schema.readText_prettyAt (s.members (depth + 1)) rfl (s.knows_members _)
    (show ["resolve_extensions", "bundler_alias_roots", "bundler_alias_extensions",
      "source_extensions"].Nodup by decide) (complete_schema _)

/-! ## The layer -/

/-- The layer that gives all that settings have. -/
def toLayer (s : Settings) : Layer :=
  ⟨some s.resolveExtensions, some s.aliasRoots, s.aliasExtensions, some s.sourceExtensions⟩

/-- A member of printed settings, for a reader of layers. -/
def layerMember (s : Settings) (depth : Nat) (k : SettingKey) : Member Layer :=
  ⟨k.name, (((s.value? k).map Value.ofStrings).getD .null).prettyAt depth, Layer.set k (s.value? k)⟩

theorem knows_layerMember (s : Settings) (depth : Nat) (k : SettingKey) :
    Layer.schema.Knows (s.layerMember depth k) := by
  have hname : SettingKey.of? k.name = some k := by cases k <;> decide
  refine ⟨k.field, ?_, rfl, (Json.takes_optional_texts depth (s.value? k)).field _ _ _ _⟩
  rw [layerMember, SettingKey.field?_eq, hname]
  rfl

theorem complete_layerSchema (names : List String) : Layer.schema.Complete names := by
  intro f hf hrequired
  rw [SettingKey.fields_eq] at hf
  obtain ⟨k, -, rfl⟩ := List.mem_map.1 hf
  cases hrequired

/-- Printed settings are read back as a layer. -/
theorem readText_layer_toJson (s : Settings) (depth : Nat) :
    Layer.schema.readText (s.toJson.prettyAt depth) = .ok s.toLayer :=
  Schema.readText_prettyAt (SettingKey.all.map (s.layerMember (depth + 1))) rfl
    (List.forall_mem_map.2 fun k _ => s.knows_layerMember _ k)
    (show (SettingKey.all.map SettingKey.name).Nodup by decide) (complete_layerSchema _)

/-- **Printed settings over other settings**: they replace all of them, except that endings for
the alias roots that were not chosen are left as they are. -/
theorem applyText_toJson (base s : Settings) (depth : Nat) :
    base.applyText (s.toJson.prettyAt depth)
      = .ok { s with aliasExtensions := s.aliasExtensions.or base.aliasExtensions } := by
  rw [applyText, readText_layer_toJson]
  obtain ⟨resolveExtensions, aliasRoots, aliasExtensions, sourceExtensions⟩ := s
  cases aliasExtensions <;> rfl

/-- Printed settings bring themselves back over settings that chose no endings for the alias
roots, or the same ones. -/
theorem applyText_toJson_self {base s : Settings}
    (h : s.aliasExtensions.or base.aliasExtensions = s.aliasExtensions) (depth : Nat) :
    base.applyText (s.toJson.prettyAt depth) = .ok s := by
  rw [applyText_toJson, h]

/-! ## Loading -/

section Loading

variable {d d' : Disk} {user : UserDirectories} {root : Path} {explicit : Option Path} {s : Settings}

/-- The files with the settings of the user and of the project. -/
def standardFiles (user : UserDirectories) (root : Path) : List Path :=
  user.settingsFile?.toList ++ [ofProject root]

/-- Two disks have the same settings file at a path, or both have none. -/
def SameAt (d d' : Disk) (p : Path) : Prop :=
  d' (.isFile p) = d (.isFile p) ∧ d' (.readText p) = d (.readText p)

theorem SameAt.fault {p : Path} (h : SameAt d d' p) (required : Bool) :
    fileFault? d' (p, required) = fileFault? d (p, required) := by
  rw [fileFault?, fileFault?, h.1, h.2]

theorem SameAt.texts {p : Path} (h : SameAt d d' p) : fileTexts d' p = fileTexts d p := by
  rw [fileTexts, fileTexts, h.1, h.2]

/-- Another file that is written does not matter. -/
theorem sameAt_write (m : Memory) {p q : Path} (f : MemoryFile) (h : ¬q.Same p) :
    SameAt m.disk (m.write p f).disk q := by
  have hfile := m.file?_write_of_not_same f h
  exact ⟨by rw [Memory.disk, hfile]; rfl, by rw [Memory.disk, Memory.read, hfile]; rfl⟩

theorem flatMap_files (d : Disk) (user : UserDirectories) (root : Path) (explicit : Option Path) :
    ((files user root explicit).flatMap fun f => fileTexts d f.1)
      = (standardFiles user root).flatMap (fileTexts d)
        ++ explicit.toList.flatMap (fileTexts d) := by
  rw [files, List.flatMap_append, List.flatMap_map, List.flatMap_map]
  rfl

theorem run_load_eq_ok_iff :
    (load user root explicit).run d = .ok s ↔
      (∀ f ∈ files user root explicit, fileFault? d f = none) ∧
      ((default.applyTexts ((standardFiles user root).flatMap (fileTexts d))).applyTexts
        (explicit.toList.flatMap (fileTexts d))) = s := by
  rw [run_load, flatMap_files, applyTexts_append, ← List.findSome?_eq_none_iff]
  cases (files user root explicit).findSome? (fileFault? d) with
  | some e => simp
  | none => simp

/-- Endings for the alias roots that are not chosen in the end were never chosen. -/
theorem aliasExtensions_applyTexts_or (base : Settings) (texts : List String) :
    (base.applyTexts texts).aliasExtensions.or base.aliasExtensions
      = (base.applyTexts texts).aliasExtensions := by
  have h := value?_applyTexts base texts .aliasExtensions
  change (base.applyTexts texts).aliasExtensions = Option.or _ base.aliasExtensions at h
  rw [h, Option.or_assoc, Option.or_self]

/-- **Settings that were loaded, printed and asked for** come out the same, over the same settings
of the user and of the project. -/
theorem run_load_printed {p : Path} {depth : Nat}
    (hload : (load user root explicit).run d = .ok s)
    (hsame : ∀ q ∈ standardFiles user root, SameAt d d' q) (hfile : d' (.isFile p) = true)
    (htext : d' (.readText p) = .ok (s.toJson.prettyAt depth)) :
    (load user root (some p)).run d' = .ok s := by
  obtain ⟨hsound, hs⟩ := run_load_eq_ok_iff.1 hload
  rw [run_load_eq_ok_iff]
  have htexts : fileTexts d' p = [s.toJson.prettyAt depth] := by
    rw [fileTexts, if_pos hfile, htext]
    rfl
  refine ⟨fun f hf => ?_, ?_⟩
  · rcases List.mem_append.1 hf with hf | hf
    · obtain ⟨q, hq, rfl⟩ := List.mem_map.1 hf
      rw [(hsame q hq).fault]
      exact hsound _ (List.mem_append_left _ hf)
    · obtain rfl := List.mem_singleton.1 hf
      rw [fileFault?, if_pos hfile, htext]
      dsimp only
      rw [readText_layer_toJson]
  · have hstandard : (standardFiles user root).flatMap (fileTexts d')
        = (standardFiles user root).flatMap (fileTexts d) := by
      rw [List.flatMap_def, List.flatMap_def]
      exact congrArg List.flatten (List.map_congr_left fun q hq => (hsame q hq).texts)
    rw [hstandard, Option.toList_some, List.flatMap_singleton, htexts]
    generalize default.applyTexts ((standardFiles user root).flatMap (fileTexts d)) = base at hs ⊢
    -- endings for the alias roots are all that printed settings may fail to replace
    have halias : s.aliasExtensions.or base.aliasExtensions = s.aliasExtensions := by
      rw [← hs]
      exact aliasExtensions_applyTexts_or base _
    rw [applyTexts, List.foldl_cons, List.foldl_nil, applyText_toJson_self halias]
    rfl

end Loading

/-! ## The report -/

/-- What the command that shows the settings prints as JSON: the settings are a member of the
document, and their object stands in the text of the document one step deeper. -/
theorem run_config_prints {d : Disk} {user : UserDirectories} {options : RunOptions}
    {project : Project} (h : (Project.load user options).run d = .ok project) :
    ∃ document : Value,
      ((Invocation.mk .config true options).run user).run d = .ofJson .success document ∧
      document.field? "settings" = some project.settings.toJson ∧
      (Json.stringText "settings" ++ ": " ++ project.settings.toJson.prettyAt 1).toList
        <:+: (Output.ofJson .success document).stdout.toList := by
  rw [run_config, h]
  dsimp only
  generalize hreport : SettingsReport.mk project.root
    ((sources user project.root options.configFile).run d) project.settings
    project.context.fingerprint = report
  have hsettings : report.settings = project.settings := by rw [← hreport]
  refine ⟨report.document, if_pos rfl, ?_, ?_⟩
  · rw [← hsettings]
    rfl
  · have hstdout : (Output.ofJson .success report.document).stdout.toList
        = (report.document.prettyAt 0).toList ++ "\n".toList := String.toList_append
    have hmember : ("settings", project.settings.toJson) ∈
        [("ok", .bool true), ("project_root", report.root.toJson),
          ("sources", .list (report.sources.map Path.toJson)),
          ("settings", report.settings.toJson), ("fingerprint", .string report.fingerprint)] := by
      simp [hsettings]
    rw [hstdout]
    exact (Value.infix_prettyAt hmember 0).trans (List.prefix_append _ _).isInfix

/-- **Printed settings read back unchanged**, whatever texts they hold: as a whole, as a layer over
the default settings, and as a layer over themselves. The command that shows the settings prints
exactly this object for them. Asked for as a file, over the same settings of the user and of the
project, what was printed for the loaded settings leads to these settings again. -/
theorem printed_readBack (s : Settings) :
    (∀ depth, schema.readText (s.toJson.prettyAt depth) = .ok s ∧
      default.applyText (s.toJson.prettyAt depth) = .ok s ∧
      s.applyText (s.toJson.prettyAt depth) = .ok s) ∧
    (∀ (d : Disk) (user : UserDirectories) (options : RunOptions) (project : Project),
      (Project.load user options).run d = .ok project → project.settings = s →
      ∃ document : Value,
        ((Invocation.mk .config true options).run user).run d = .ofJson .success document ∧
        document.field? "settings" = some s.toJson ∧
        (Json.stringText "settings" ++ ": " ++ s.toJson.prettyAt 1).toList
          <:+: (Output.ofJson .success document).stdout.toList) ∧
    ∀ (d d' : Disk) (user : UserDirectories) (root : Path) (explicit : Option Path) (p : Path)
      (depth : Nat), (load user root explicit).run d = .ok s →
      (∀ q ∈ standardFiles user root, SameAt d d' q) → d' (.isFile p) = true →
      d' (.readText p) = .ok (s.toJson.prettyAt depth) →
      (load user root (some p)).run d' = .ok s := by
  refine ⟨fun depth => ⟨s.readText_toJson depth, ?_, ?_⟩, ?_, ?_⟩
  · exact applyText_toJson_self Option.or_none depth
  · exact applyText_toJson_self Option.or_self depth
  · rintro d user options project hload rfl
    exact run_config_prints hload
  · intro d d' user root explicit p depth hload hsame hfile htext
    exact run_load_printed hload hsame hfile htext

/-- Settings with a root that has to be escaped, without any endings of source files, and without
endings of their own for the root. -/
def escapedRoot : Settings :=
  { default with aliasRoots := ["\"\x01"], sourceExtensions := [] }

/-- A project with nothing but a settings file that chooses these. -/
def escapedRootProject : Memory :=
  Memory.empty.write ⟨"/p/reqlink.json"⟩
    ⟨"\x7b\"webpack_resolve_modules\":[\"\\\"\\u0001\"],\"extensions\":[]\x7d", none, none, true⟩

/-- They are printed, written to a file and asked for. -/
theorem printed_readBack_escapedRoot :
    (∃ document : Value,
      ((Invocation.mk .config true (.inDirectory ⟨"/p"⟩)).run ⟨none, none⟩).run
        escapedRootProject.disk = .ofJson .success document ∧
      document.field? "settings" = some escapedRoot.toJson) ∧
    (load ⟨none, none⟩ ⟨"/p"⟩ (some ⟨"/p/s.json"⟩)).run
      (escapedRootProject.write ⟨"/p/s.json"⟩
        ⟨escapedRoot.toJson.prettyAt 1, none, none, true⟩).disk = .ok escapedRoot := by
  obtain ⟨-, hprints, hreload⟩ := printed_readBack escapedRoot
  have hproject : ((Project.load ⟨none, none⟩ (.inDirectory ⟨"/p"⟩)).run
      escapedRootProject.disk).toOption.map (fun project => (project.root, project.settings))
        = some (⟨"/p"⟩, escapedRoot) := by
    decide +kernel
  obtain ⟨project, hload, hchosen⟩ := Option.map_eq_some_iff.1 hproject
  have hload := eq_ok_of_toOption_eq hload
  obtain ⟨hroot, hsettings⟩ := Prod.mk.inj hchosen
  obtain ⟨document, hrun, hfield, -⟩ := hprints _ _ _ project hload hsettings
  have hloaded := run_load_of_project hload
  rw [hroot, hsettings] at hloaded
  have hother : ¬(ofProject ⟨"/p"⟩).Same ⟨"/p/s.json"⟩ := by decide +kernel
  refine ⟨⟨document, hrun, hfield⟩, hreload _ _ _ _ none _ 1 hloaded ?_ ?_ ?_⟩
  · exact List.forall_mem_singleton.2 (sameAt_write _ _ hother)
  · rw [Memory.disk, Memory.file?_write_self _ _ rfl]
    rfl
  · rw [Memory.disk, Memory.read, Memory.file?_write_self _ _ rfl]
    rfl

end Settings

end ModuleLookup
