import ModuleLookup.CommandLine.Run
import ModuleLookup.Proofs.Lookup.Candidates
import ModuleLookup.Proofs.Settings.Given

/-!
# Layers of settings

Settings files are laid over each other, and a setting ends up with what the last of them gives
for it. Files that cannot be read as a layer take no part. Which files there are is found out
twice, once to load them and once to name them in a report, and both come to the same.

* `Settings.applyTexts` — texts laid over settings, one after the other; `value?_applyTexts` says
  what a setting ends up with.
* `Settings.files` — the files that are loaded, in order; `run_load` says that loading them is
  laying their texts over the default settings, or the first fault that is met.
* `Settings.layers_lastGiven` — all of this together, with the report: the files that it names
  lead to the settings that it shows.
-/

namespace ModuleLookup

namespace Settings

/-! ## Sequences of texts -/

/-- Whether a text can be read as a layer. -/
def isLayer (text : String) : Bool :=
  (Layer.schema.readText text).toOption.isSome

/-- Lays texts over settings, one after the other. One that cannot be read changes nothing. -/
def applyTexts (settings : Settings) (texts : List String) : Settings :=
  texts.foldl (fun settings text => (settings.applyText text).toOption.getD settings) settings

/-- What the last of some layers gives for a setting that gives anything for it. -/
def lastGiven? (k : SettingKey) (texts : List String) : Option (List String) :=
  texts.reverse.findSome? fun text => if isLayer text then k.given? text else none

section Texts

variable {settings : Settings} {text : String}

theorem applyText_of_isLayer_eq_false (h : isLayer text = false) :
    (settings.applyText text).toOption = none := by
  rw [isLayer] at h
  rw [applyText]
  cases hl : Layer.schema.readText text with
  | error e => rfl
  | ok layer =>
    rw [hl] at h
    cases h

/-- A layer that gives something for a setting replaces what was there. -/
theorem value?_apply (settings : Settings) (layer : Layer) (k : SettingKey) :
    (settings.apply layer).value? k = (layer.value? k).or (settings.value? k) := by
  obtain ⟨resolveExtensions, aliasRoots, aliasExtensions, sourceExtensions⟩ := layer
  cases k with
  | resolveExtensions => cases resolveExtensions <;> rfl
  | aliasRoots => cases aliasRoots <;> rfl
  | aliasExtensions => cases aliasExtensions <;> rfl
  | sourceExtensions => cases sourceExtensions <;> rfl

theorem applyTexts_cons (settings : Settings) (text : String) (texts : List String) :
    settings.applyTexts (text :: texts)
      = ((settings.applyText text).toOption.getD settings).applyTexts texts :=
  rfl

theorem applyTexts_append (settings : Settings) (texts texts' : List String) :
    settings.applyTexts (texts ++ texts') = (settings.applyTexts texts).applyTexts texts' := by
  rw [applyTexts, applyTexts, applyTexts, List.foldl_append]

/-- One text more: what it gives, or what was there. -/
theorem value?_applyText_getD (settings : Settings) (text : String) (k : SettingKey) :
    ((settings.applyText text).toOption.getD settings).value? k
      = (if isLayer text then k.given? text else none).or (settings.value? k) := by
  cases hl : Layer.schema.readText text with
  | error e => rw [applyText, isLayer, hl]; rfl
  | ok layer =>
    rw [applyText, isLayer, hl, ← SettingKey.value?_of_readText hl]
    exact value?_apply settings layer k

theorem lastGiven?_cons (k : SettingKey) (text : String) (texts : List String) :
    lastGiven? k (text :: texts)
      = (lastGiven? k texts).or (if isLayer text then k.given? text else none) := by
  rw [lastGiven?, lastGiven?, List.reverse_cons, List.findSome?_append, List.findSome?_singleton]

/-- **The last one counts**: a setting ends up with what the last text gives for it that gives
anything, and stays what it was when there is none. -/
theorem value?_applyTexts (settings : Settings) (texts : List String) (k : SettingKey) :
    (settings.applyTexts texts).value? k = (lastGiven? k texts).or (settings.value? k) := by
  induction texts generalizing settings with
  | nil => rfl
  | cons text texts ih =>
    rw [applyTexts_cons, ih, value?_applyText_getD, lastGiven?_cons, Option.or_assoc]

/-- Texts that cannot be read may as well be left out. -/
theorem applyTexts_filter (settings : Settings) (texts : List String) :
    settings.applyTexts (texts.filter isLayer) = settings.applyTexts texts := by
  induction texts generalizing settings with
  | nil => rfl
  | cons text texts ih =>
    cases h : isLayer text with
    | true => rw [List.filter_cons_of_pos h, applyTexts_cons, applyTexts_cons, ih]
    | false =>
      rw [List.filter_cons_of_neg (by simp [h]), applyTexts_cons, ih,
        applyText_of_isLayer_eq_false h, Option.getD_none]

end Texts

/-! ## Loading -/

/-- The settings files in the order in which they are laid over each other, and whether each of
them has to be there. -/
def files (user : UserDirectories) (root : Path) (explicit : Option Path) : List (Path × Bool) :=
  (user.settingsFile?.toList ++ [ofProject root]).map (·, false) ++ explicit.toList.map (·, true)

/-- What is wrong with a settings file, if anything. -/
def fileFault? (d : Disk) : Path × Bool → Option Error
  | (p, required) =>
    if d (.isFile p) then
      match d (.readText p) with
      | .error fault => some (.configRead p fault)
      | .ok text =>
        match Layer.schema.readText text with
        | .error e => some (.configParse p e)
        | .ok _ => none
    else if required then some (.configRead p (.other "config file does not exist"))
    else none

/-- The text of a settings file, if it is a file that can be read. -/
def fileTexts (d : Disk) (p : Path) : List String :=
  if d (.isFile p) then (d (.readText p)).toOption.toList else []

section Loading

variable {d : Disk}

/-- A settings file that is there is read completely or not at all. -/
theorem run_applyFile (settings : Settings) (p : Path) :
    (settings.applyFile p).run d = match fileFault? d (p, false) with
      | some e => .error e
      | none => .ok (if d (.isFile p) then some (settings.applyTexts (fileTexts d p))
          else none) := by
  rw [applyFile, Program.run_bind, run_query, fileFault?, fileTexts]
  by_cases hfile : d (.isFile p) = true
  · rw [if_pos hfile, if_pos hfile, Program.run_bind, run_query]
    cases hread : d (.readText p) with
    | error fault => rfl
    | ok text =>
      dsimp only
      cases hl : Layer.schema.readText text with
      | error e => rw [applyText, hl]; rfl
      | ok layer =>
        rw [if_pos hfile, if_pos hfile, applyText, hl]
        change Except.ok (some (settings.apply layer))
          = Except.ok (some (settings.applyTexts [text]))
        rw [applyTexts, List.foldl_cons, List.foldl_nil, applyText, hl]
        rfl
  · rw [if_neg hfile, if_neg hfile, if_neg Bool.false_ne_true, if_neg hfile]
    rfl

theorem fileTexts_of_not_isFile {p : Path} (h : ¬d (.isFile p) = true) : fileTexts d p = [] :=
  if_neg h

/-- Several settings files that may be missing: the first fault, or all their texts. -/
theorem run_applyFiles (settings : Settings) (ps : List Path) :
    (settings.applyFiles ps).run d = match ps.findSome? fun p => fileFault? d (p, false) with
      | some e => .error e
      | none => .ok (settings.applyTexts (ps.flatMap (fileTexts d))) := by
  induction ps generalizing settings with
  | nil => rfl
  | cons p ps ih =>
    rw [applyFiles, Program.run_bind, run_applyFile, List.findSome?_cons, List.flatMap_cons,
      applyTexts_append]
    cases hp : fileFault? d (p, false) with
    | some e => rfl
    | none =>
      dsimp only
      rw [ih]
      by_cases hfile : d (.isFile p) = true
      · rw [if_pos hfile, Option.getD_some]
      · rw [if_neg hfile, Option.getD_none, fileTexts_of_not_isFile hfile]
        rfl

/-- The settings file that was asked for has to be there. -/
theorem run_applyExplicit (settings : Settings) (p : Path) :
    (settings.applyExplicit p).run d = match fileFault? d (p, true) with
      | some e => .error e
      | none => .ok (settings.applyTexts (fileTexts d p)) := by
  rw [applyExplicit, Program.run_bind, run_applyFile, fileFault?, fileFault?]
  by_cases hfile : d (.isFile p) = true
  · rw [if_pos hfile, if_pos hfile, if_pos hfile]
    cases d (.readText p) with
    | error fault => rfl
    | ok text =>
      dsimp only
      cases Layer.schema.readText text <;> rfl
  · rw [if_neg hfile, if_neg hfile, if_neg hfile, if_neg Bool.false_ne_true, if_pos rfl]
    rfl

/-- **Loading settings** lays the texts of the files that are there over the default settings,
unless one of the files is at fault: then it ends with the first fault. -/
theorem run_load (user : UserDirectories) (root : Path) (explicit : Option Path) :
    (load user root explicit).run d
      = match (files user root explicit).findSome? (fileFault? d) with
        | some e => .error e
        | none => .ok (default.applyTexts
            ((files user root explicit).flatMap fun f => fileTexts d f.1)) := by
  rw [load, files]
  generalize user.settingsFile?.toList ++ [ofProject root] = ps
  rw [Program.run_bind, run_applyFiles, List.findSome?_append, List.findSome?_map,
    List.flatMap_append, List.flatMap_map, applyTexts_append]
  have hcomp : (fileFault? d ∘ fun p => (p, false)) = fun p => fileFault? d (p, false) := rfl
  rw [hcomp]
  generalize ps.findSome? (fun p => fileFault? d (p, false)) = fault
  cases fault with
  | some e => rfl
  | none =>
    cases explicit with
    | none => rfl
    | some p =>
      rw [Option.none_or]
      dsimp only
      rw [run_applyExplicit, Option.toList_some, List.map_singleton, List.findSome?_singleton,
        List.flatMap_singleton]

/-- The files that a report names are those of the loaded ones that are there. -/
theorem run_sources (user : UserDirectories) (root : Path) (explicit : Option Path) :
    (sources user root explicit).run d
      = ((files user root explicit).map Prod.fst).filter fun p => d (.isFile p) := by
  have hkeep (ps : List Path) :
      (sources.keepFiles ps).run d = ps.filter fun p => d (.isFile p) := by
    induction ps with
    | nil => rfl
    | cons p ps ih =>
      rw [sources.keepFiles, Program.run_bind, run_query, Program.run_bind, ih, List.filter_cons]
      by_cases hfile : d (.isFile p) = true
      · rw [if_pos hfile]
        rfl
      · rw [if_neg hfile]
        rfl
  rw [sources, hkeep]
  simp only [files, List.map_append, List.map_map, Function.comp_def, List.map_id']

/-- A file that is at fault is so whether it has to be there or not. -/
theorem fileFault?_eq_none {f : Path × Bool} (h : fileFault? d f = none) :
    fileFault? d (f.1, false) = none := by
  obtain ⟨p, required⟩ := f
  rw [fileFault?] at h ⊢
  by_cases hfile : d (.isFile p) = true
  · rw [if_pos hfile] at h ⊢
    exact h
  · rw [if_neg hfile, if_neg Bool.false_ne_true]

/-- Files that are not there add nothing. -/
theorem flatMap_fileTexts_filter (ps : List Path) :
    (ps.filter fun p => d (.isFile p)).flatMap (fileTexts d) = ps.flatMap (fileTexts d) := by
  induction ps with
  | nil => rfl
  | cons p ps ih =>
    rw [List.filter_cons, List.flatMap_cons]
    by_cases hfile : d (.isFile p) = true
    · rw [if_pos hfile, List.flatMap_cons, ih]
    · rw [if_neg hfile, ih, fileTexts_of_not_isFile hfile, List.nil_append]

/-- **The files in a report tell all**: laid over the default settings again, in order, they lead
to the settings that were loaded. -/
theorem run_applyFiles_sources {user : UserDirectories} {root : Path} {explicit : Option Path}
    {settings : Settings} (h : (load user root explicit).run d = .ok settings) :
    (default.applyFiles ((sources user root explicit).run d)).run d = .ok settings := by
  rw [run_load] at h
  rw [run_applyFiles, run_sources, flatMap_fileTexts_filter, List.flatMap_map]
  cases hfault : (files user root explicit).findSome? (fileFault? d) with
  | some e =>
    rw [hfault] at h
    cases h
  | none =>
    rw [hfault] at h
    have hnone : ((((files user root explicit).map Prod.fst).filter fun p =>
        d (.isFile p)).findSome? fun p => fileFault? d (p, false)) = none := by
      rw [List.findSome?_eq_none_iff]
      intro p hp
      obtain ⟨f, hf, rfl⟩ := List.mem_map.1 (List.mem_filter.1 hp).1
      exact fileFault?_eq_none (List.findSome?_eq_none_iff.1 hfault f hf)
    rw [hnone]
    exact h

/-- What a project was loaded with. -/
theorem run_load_of_project {user : UserDirectories} {options : RunOptions} {project : Project}
    (h : (Project.load user options).run d = .ok project) :
    (load user project.root options.configFile).run d = .ok project.settings := by
  rw [Project.load, Program.run_bind, Program.run_bind] at h
  generalize (projectRoot options.cwd).run d = root at h
  cases hload : (load user root options.configFile).run d with
  | error e =>
    rw [hload] at h
    cases h
  | ok settings =>
    rw [hload] at h
    dsimp only at h
    split at h
    · cases h
    · cases h
      exact hload

/-- The command that shows the settings. -/
theorem run_config (user : UserDirectories) (json : Bool) (options : RunOptions) :
    ((Invocation.mk .config json options).run user).run d
      = match (Project.load user options).run d with
        | .error e => .ofError json e
        | .ok project => SettingsReport.output
            ⟨project.root, (sources user project.root options.configFile).run d,
              project.settings, project.context.fingerprint⟩ json := by
  rw [Invocation.run]
  dsimp only
  rw [Program.run_bind]
  cases (Project.load user options).run d with
  | error e => rfl
  | ok project =>
    dsimp only
    rw [Invocation.runIn]
    dsimp only
    rw [Program.run_bind, Project.report, Program.run_bind]
    rfl

end Loading

/-- **Settings are layered.** Each setting ends up with what the last readable text gives for it
by one of its names, or by its place where a text is a list, and stays what it was when none
gives anything; texts that cannot be read may be left out. Loading lays the settings files that
are there over the default settings and stops at the first that is at fault. The files that the
report on the settings names lead, in order, from the default settings to the reported ones. -/
theorem layers_lastGiven :
    (∀ (settings : Settings) (texts : List String),
      (∀ k, (settings.applyTexts texts).value? k = (lastGiven? k texts).or (settings.value? k)) ∧
      settings.applyTexts (texts.filter isLayer) = settings.applyTexts texts) ∧
    ∀ (d : Disk) (user : UserDirectories),
      (∀ root explicit, (load user root explicit).run d
        = match (files user root explicit).findSome? (fileFault? d) with
          | some e => .error e
          | none => .ok (default.applyTexts
              ((files user root explicit).flatMap fun f => fileTexts d f.1))) ∧
      ∀ json options,
        match (Project.load user options).run d with
        | .error e => ((Invocation.mk .config json options).run user).run d = .ofError json e
        | .ok project => ∃ report : SettingsReport,
          ((Invocation.mk .config json options).run user).run d = report.output json ∧
          report.settings = project.settings ∧
          report.sources = ((files user project.root options.configFile).map Prod.fst).filter
            (fun p => d (.isFile p)) ∧
          (default.applyFiles report.sources).run d = .ok report.settings := by
  refine ⟨fun settings texts => ?_, fun d user => ⟨run_load user, fun json options => ?_⟩⟩
  · exact ⟨value?_applyTexts settings texts, applyTexts_filter settings texts⟩
  · rw [run_config]
    cases hload : (Project.load user options).run d with
    | error e => rfl
    | ok project =>
      exact ⟨_, rfl, rfl, run_sources user project.root options.configFile,
        run_applyFiles_sources (run_load_of_project hload)⟩

/-- What a text gives for a setting by one of its names. -/
def named? (k : SettingKey) (text : String) : Option (List String) :=
  ((SettingKey.ofMembers (SettingKey.members text)).lookup k).bind Json.Site.texts?

/-- Names are not all there is: a list gives endings without any name. -/
theorem not_forall_value?_eq_named :
    ¬∀ (settings : Settings) (texts : List String) (k : SettingKey),
      (settings.applyTexts texts).value? k
        = (texts.reverse.findSome? fun text => if isLayer text then named? k text else none).or
          (settings.value? k) := by
  intro h
  have hlist := h default ["[[\".x\"],null,null,null]"] .resolveExtensions
  revert hlist
  decide +kernel

end Settings

end ModuleLookup
