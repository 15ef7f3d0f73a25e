import ModuleLookup.Proofs.Json.Reading
import ModuleLookup.Settings.Basic

/-!
# What a settings file gives

A settings file is read as a whole, by a reader that knows its fields. What it gives can also be
told from the outside: go over the members of the object, skipping every value, and look at
those whose name is one of the names of a setting. A list gives the settings by their order.

* `SettingKey` — the four settings, with the names they are known by.
* `Json.namedSites`, `Json.sites` — the members of an object, and the elements of a list, each
  with the site where its value starts.
* `SettingKey.given?` — what a text gives for a setting.
* `SettingKey.gives_readText` — a layer that can be read has for every setting what its text
  gives, and the text has no more than one site for it.
-/

namespace ModuleLookup

/-! ## Sites -/

namespace Json

/-- Where a value starts: its first character, and the text behind that. -/
structure Site where
  /-- the first character -/
  char : Char
  /-- the text behind it -/
  rest : List Char

/-- The texts that are listed at a site. -/
def Site.texts? (p : Site) : Option (List String) :=
  (texts p.char p.rest).toOption.map Read.value

/-- The members of an object behind the quote that opens the first name: each with its name and
the site of its value. -/
def namedSites (cs : List Char) : Except Fault (List (String × Site)) := do
  let name ← string cs
  let start ← fieldValue name.rest
  let v ← skipValue start.char start.rest
  let taken := name.andThen (start.andThen v)
  let here := (String.ofList name.value, Site.mk start.char start.rest)
  match ← nextField taken.rest with
  | .done _ => return [here]
  | .more d =>
    let others ← namedSites d.rest
    return here :: others
termination_by cs.length
decreasing_by exact Nat.lt_of_lt_of_le d.lt taken.le

/-- The elements of a list, the first one given by its first character. -/
def sites (c : Char) (cs : List Char) : Except Fault (List Site) := do
  let v ← skipValue c cs
  match ← nextElement v.rest with
  | .done _ => return [⟨c, cs⟩]
  | .more d =>
    let others ← sites d.char d.rest
    return ⟨c, cs⟩ :: others
termination_by cs.length
decreasing_by exact Nat.lt_of_lt_of_le d.lt v.le

end Json

namespace Json

section Sites

variable {cs m : List Char} {name : Read (List Char) cs} {start : Start name.rest}

theorem namedSites_of_done {closing : Read Unit m} (hname : string cs = .ok name)
    (hstart : fieldValue name.rest = .ok start) (hv : Ends (skipValue start.char start.rest) m)
    (hn : nextField m = .ok (.done closing)) :
    namedSites cs = .ok [(String.ofList name.value, ⟨start.char, start.rest⟩)] := by
  obtain ⟨v, hv, rfl⟩ := hv
  rw [namedSites]
  refine bind_eq_ok_iff.2 ⟨name, hname, bind_eq_ok_iff.2 ⟨start, hstart, ?_⟩⟩
  exact bind_eq_ok_iff.2 ⟨v, hv, bind_eq_ok_iff.2 ⟨.done closing, hn, rfl⟩⟩

theorem namedSites_of_more {d : Start m} {others : List (String × Site)}
    (hname : string cs = .ok name) (hstart : fieldValue name.rest = .ok start)
    (hv : Ends (skipValue start.char start.rest) m) (hn : nextField m = .ok (.more d))
    (hothers : namedSites d.rest = .ok others) :
    namedSites cs
      = .ok ((String.ofList name.value, ⟨start.char, start.rest⟩) :: others) := by
  obtain ⟨v, hv, rfl⟩ := hv
  rw [namedSites]
  refine bind_eq_ok_iff.2 ⟨name, hname, bind_eq_ok_iff.2 ⟨start, hstart, ?_⟩⟩
  refine bind_eq_ok_iff.2 ⟨v, hv, bind_eq_ok_iff.2 ⟨.more d, hn, ?_⟩⟩
  exact bind_eq_ok_iff.2 ⟨others, hothers, rfl⟩

theorem sites_of_done {c : Char} {closing : Read Unit m} (hv : Ends (skipValue c cs) m)
    (hn : nextElement m = .ok (.done closing)) : sites c cs = .ok [⟨c, cs⟩] := by
  obtain ⟨v, hv, rfl⟩ := hv
  rw [sites]
  exact bind_eq_ok_iff.2 ⟨v, hv, bind_eq_ok_iff.2 ⟨.done closing, hn, rfl⟩⟩

theorem sites_of_more {c : Char} {d : Start m} {others : List Site}
    (hv : Ends (skipValue c cs) m) (hn : nextElement m = .ok (.more d))
    (hothers : sites d.char d.rest = .ok others) :
    sites c cs = .ok (⟨c, cs⟩ :: others) := by
  obtain ⟨v, hv, rfl⟩ := hv
  rw [sites]
  refine bind_eq_ok_iff.2 ⟨v, hv, bind_eq_ok_iff.2 ⟨.more d, hn, ?_⟩⟩
  exact bind_eq_ok_iff.2 ⟨others, hothers, rfl⟩

end Sites

end Json

/-! ## Settings by name -/

/-- The settings of a project, one by one. -/
inductive SettingKey where
  /-- endings tried on a path -/
  | resolveExtensions
  /-- directories for bare specifiers -/
  | aliasRoots
  /-- endings tried in those directories -/
  | aliasExtensions
  /-- endings of source files -/
  | sourceExtensions
  deriving DecidableEq

namespace SettingKey

/-- The settings in the order of a settings file that is a list. -/
def all : List SettingKey :=
  [resolveExtensions, aliasRoots, aliasExtensions, sourceExtensions]

/-- The name of a setting. -/
def name : SettingKey → String
  | resolveExtensions => "resolve_extensions"
  | aliasRoots => "bundler_alias_roots"
  | aliasExtensions => "bundler_alias_extensions"
  | sourceExtensions => "source_extensions"

/-- The other names it is known by. -/
def aliases : SettingKey → List String
  | resolveExtensions => []
  | aliasRoots => ["webpack_resolve_modules"]
  | aliasExtensions => ["webpack_resolve_extensions"]
  | sourceExtensions => ["extensions"]

/-- The setting with a name. -/
def of? (s : String) : Option SettingKey :=
  all.find? fun k => k.name == s || k.aliases.contains s

/-- The members of a text that is an object. -/
def members (text : String) : List (String × Json.Site) :=
  match Json.ahead text.toList with
  | none => []
  | some c =>
    if c.char = '\x7b' then
      match Json.firstField c.rest with
      | .ok (.more d) => (Json.namedSites d.rest).toOption.getD []
      | _ => []
    else []

/-- The elements of a text that is a list. -/
def elements (text : String) : List Json.Site :=
  match Json.ahead text.toList with
  | none => []
  | some c =>
    if c.char = '[' then
      match Json.firstElement c.rest with
      | .ok (.more d) => (Json.sites d.char d.rest).toOption.getD []
      | _ => []
    else []

/-- The members that are called like a setting. -/
def ofMembers (members : List (String × Json.Site)) : List (SettingKey × Json.Site) :=
  members.flatMap fun (s, site) => (of? s).toList.map (·, site)

/-- What a text holds for the settings: the members that are called like one, and the elements in
order. No text has both. -/
def entries (text : String) : List (SettingKey × Json.Site) :=
  ofMembers (members text) ++ all.zip (elements text)

/-- What a text gives for a setting: the texts at the site that it holds for it. There are none
at a `null`. -/
def given? (k : SettingKey) (text : String) : Option (List String) :=
  ((entries text).lookup k).bind Json.Site.texts?

end SettingKey

namespace Settings

/-- The value of one setting. -/
def value? (settings : Settings) : SettingKey → Option (List String)
  | .resolveExtensions => some settings.resolveExtensions
  | .aliasRoots => some settings.aliasRoots
  | .aliasExtensions => settings.aliasExtensions
  | .sourceExtensions => some settings.sourceExtensions

/-- What a layer has for one setting. -/
def Layer.value? (layer : Layer) : SettingKey → Option (List String)
  | .resolveExtensions => layer.resolveExtensions
  | .aliasRoots => layer.aliasRoots
  | .aliasExtensions => layer.aliasExtensions
  | .sourceExtensions => layer.sourceExtensions

/-- A layer with another value for one setting. -/
def Layer.set : SettingKey → Option (List String) → Layer → Layer
  | .resolveExtensions, v, layer => { layer with resolveExtensions := v }
  | .aliasRoots, v, layer => { layer with aliasRoots := v }
  | .aliasExtensions, v, layer => { layer with aliasExtensions := v }
  | .sourceExtensions, v, layer => { layer with sourceExtensions := v }

theorem Layer.value?_set (k j : SettingKey) (v : Option (List String)) (layer : Layer) :
    (layer.set k v).value? j = if k = j then v else layer.value? j := by
  cases k <;> cases j <;> rfl

theorem Layer.value?_empty (k : SettingKey) : Layer.empty.value? k = none := by
  cases k <;> rfl

end Settings

/-! ## Reading one setting -/

open Settings (Layer)
open Json

namespace SettingKey

/-- The field of a layer for a setting. -/
def field (k : SettingKey) : Json.Field Layer :=
  .ofReader k.name k.aliases false (Json.optional texts) (Layer.set k)

theorem fields_eq : Layer.schema.fields = all.map field :=
  rfl

theorem field?_eq (s : String) : Layer.schema.field? s = (of? s).map field := by
  rw [Schema.field?, fields_eq, List.find?_map]
  rfl

theorem names_fields (found : Option SettingKey) :
    (found.map field).toList.map Json.Field.name = found.toList.map name := by
  cases found <;> rfl

theorem name_inj {j k : SettingKey} (h : j.name = k.name) : j = k := by
  revert h
  cases j <;> cases k <;> decide

/-- What may be `null` is a list of texts or nothing. -/
theorem value_of_optional_texts {c : Char} {cs : List Char} {r : Read (Option (List String)) cs}
    (h : Json.optional texts c cs = .ok r) : r.value = (Site.mk c cs).texts? := by
  rw [Site.texts?]
  unfold Json.optional at h
  split at h
  · next hc =>
    subst hc
    obtain ⟨u, hu, h⟩ := bind_eq_ok_iff.1 h
    cases h
    rfl
  · obtain ⟨u, hu, h⟩ := bind_eq_ok_iff.1 h
    cases h
    rw [hu]
    rfl

/-- The field of a setting takes one value, and sets what stands there. -/
theorem read_field {k : SettingKey} {c : Char} {cs : List Char} {v : Read (Layer → Layer) cs}
    (h : k.field.read c cs = .ok v) :
    Ends (skipValue c cs) v.rest ∧ ∀ (layer : Layer) (j : SettingKey),
      (v.value layer).value? j = if k = j then (Site.mk c cs).texts? else layer.value? j := by
  obtain ⟨r, hr, h⟩ := bind_eq_ok_iff.1 h
  cases h
  refine ⟨takesValue_texts.optional c cs r.rest ⟨r, hr, rfl⟩, fun layer j => ?_⟩
  rw [← value_of_optional_texts hr]
  exact Layer.value?_set k j r.value layer

/-- A member of an object takes one value as well, and sets what stands there for the setting
that it is called like, if any. -/
theorem read_change {s : String} {c : Char} {cs : List Char} {v : Read (Layer → Layer) cs}
    (h : Schema.change (Layer.schema.field? s) c cs = .ok v) :
    Ends (skipValue c cs) v.rest ∧ ∀ (layer : Layer) (j : SettingKey),
      (v.value layer).value? j
        = if of? s = some j then (Site.mk c cs).texts? else layer.value? j := by
  rw [field?_eq] at h
  generalize of? s = found at h ⊢
  rcases found with _ | k
  · rw [Option.map_none, Schema.change] at h
    obtain ⟨r, hr, h⟩ := bind_eq_ok_iff.1 h
    cases h
    exact ⟨⟨r, hr, rfl⟩, fun layer j => rfl⟩
  · rw [Option.map_some, Schema.change] at h
    obtain ⟨hends, hvalue⟩ := read_field h
    exact ⟨hends, fun layer j => by simp only [hvalue, Option.some.injEq]⟩

/-! ## Objects -/

/-- What is known of the sites in a text, and of the layer that was read from it: no setting has
two sites or was seen before, and the layer has what stands at the sites. -/
structure Gives (seen : List String) (record : Layer) (es : List (SettingKey × Site))
    (layer : Layer) : Prop where
  /-- what was seen does not come again -/
  notSeen : ∀ k ∈ es.map Prod.fst, k.name ∉ seen
  /-- nothing comes twice -/
  nodup : (es.map Prod.fst).Nodup
  /-- a setting has what stands at its site, or what it had before -/
  value : ∀ k, layer.value? k = ((es.lookup k).map Site.texts?).getD (record.value? k)

theorem Gives.nil (seen : List String) (record : Layer) : Gives seen record [] record where
  notSeen := by simp
  nodup := List.nodup_nil
  value _ := rfl

/-- One more site, in front of the others. -/
theorem Gives.cons {seen : List String} {record record' layer : Layer} {k : SettingKey}
    {site : Site} {es : List (SettingKey × Site)} (h : Gives (k.name :: seen) record' es layer)
    (hk : k.name ∉ seen)
    (hrecord : ∀ j, record'.value? j = if k = j then site.texts? else record.value? j) :
    Gives seen record ((k, site) :: es) layer where
  notSeen j hj := by
    rw [List.map_cons] at hj
    rcases List.mem_cons.1 hj with rfl | hj
    · exact hk
    · exact fun hs => h.notSeen j hj (List.mem_cons_of_mem _ hs)
  nodup := by
    rw [List.map_cons, List.nodup_cons]
    exact ⟨fun hk => h.notSeen k hk List.mem_cons_self, h.nodup⟩
  value j := by
    rw [h.value, hrecord, List.lookup_cons]
    by_cases hj : k = j
    · subst hj
      have hnone : es.lookup k = none := by
        rw [List.lookup_eq_none_iff]
        intro p hp
        have hne : k ≠ p.1 := by
          rintro rfl
          exact h.notSeen p.1 (List.mem_map_of_mem hp) List.mem_cons_self
        exact bne_iff_ne.2 hne
      rw [hnone, if_pos rfl, beq_self_eq_true]
      rfl
    · rw [if_neg hj, beq_false_of_ne (Ne.symm hj)]

/-- One more member, called like a setting or not. -/
theorem Gives.member {seen : List String} {record record' layer : Layer} {s : String}
    {site : Site} {es : List (SettingKey × Site)}
    (h : Gives ((of? s).toList.map name ++ seen) record' es layer)
    (hseen : ∀ k ∈ of? s, k.name ∉ seen)
    (hrecord : ∀ j, record'.value? j
      = if of? s = some j then site.texts? else record.value? j) :
    Gives seen record ((of? s).toList.map (·, site) ++ es) layer := by
  generalize of? s = found at h hseen hrecord ⊢
  cases found with
  | none =>
    refine ⟨h.notSeen, h.nodup, fun k => ?_⟩
    rw [h.value, hrecord]
    rfl
  | some k =>
    refine Gives.cons h (hseen k rfl) fun j => ?_
    rw [hrecord]
    simp only [Option.some.injEq]

/-- The members of an object that is read as a layer can be gone over, and give the layer. -/
theorem gives_members {seen : List String} {record : Layer} {cs : List Char}
    {r : Read Layer cs} (h : Layer.schema.members seen record cs = .ok r) :
    ∃ members, namedSites cs = .ok members ∧ Gives seen record (ofMembers members) r.value := by
  revert r
  induction seen, record, cs using Schema.members.induct Layer.schema with
  | case1 seen record cs ih =>
    intro r h
    obtain ⟨name, start, v, hname, hstart, hv, hseen, h⟩ := Schema.members_eq_ok h
    obtain ⟨hends, hchange⟩ := read_change hv
    have hnew : ∀ k ∈ of? (String.ofList name.value), k.name ∉ seen := by
      intro k hk
      refine hseen k.field ?_
      rw [field?_eq, hk]
      rfl
    rcases h with ⟨closing, hn, hr⟩ | ⟨d, r', hn, hr, h⟩
    · refine ⟨_, namedSites_of_done hname hstart hends hn, ?_⟩
      rw [hr]
      exact (Gives.nil _ _).member hnew (hchange record)
    · obtain ⟨others, hothers, hgives⟩ := ih name start v d h
      refine ⟨_, namedSites_of_more hname hstart hends hn hothers, ?_⟩
      rw [hr]
      rw [field?_eq, names_fields] at hgives
      exact hgives.member hnew (hchange record)

/-! ## Lists -/

/-- The elements of a list that is read as settings in order can be gone over, and give the
layer. -/
theorem gives_positional {keys : List SettingKey} {seen : List String} {count : Nat}
    {record : Layer} {c : Char} {cs : List Char} {r : Read Layer cs} (hkeys : keys.Nodup)
    (hseen : ∀ k ∈ keys, k.name ∉ seen)
    (h : Layer.schema.positional (keys.map field) count record c cs = .ok r) :
    ∃ ps, sites c cs = .ok ps ∧ Gives seen record (keys.zip ps) r.value := by
  induction keys generalizing seen count record c cs with
  | nil => cases h
  | cons k keys ih =>
    obtain ⟨v, hv, h⟩ := Schema.positional_eq_ok rfl h
    obtain ⟨hends, hvalue⟩ := read_field hv
    obtain ⟨hk, hkeys⟩ := List.nodup_cons.1 hkeys
    have hnew := hseen k List.mem_cons_self
    rcases h with ⟨hnil, closing, hn, hr⟩ | ⟨d, r', hn, hr, h⟩
    · refine ⟨_, sites_of_done hends hn, ?_⟩
      rw [hr, List.map_eq_nil_iff.1 hnil]
      exact (Gives.nil _ _).cons hnew (hvalue record)
    · have hseen' : ∀ j ∈ keys, j.name ∉ k.name :: seen := by
        intro j hj hmem
        rcases List.mem_cons.1 hmem with hname | hmem
        · exact hk (name_inj hname ▸ hj)
        · exact hseen j (List.mem_cons_of_mem k hj) hmem
      obtain ⟨others, hothers, hgives⟩ := ih hkeys hseen' h
      refine ⟨_, sites_of_more hends hn hothers, ?_⟩
      rw [hr]
      exact hgives.cons hnew (hvalue record)

/-! ## Whole texts -/

/-- **What a settings file gives.** A layer that is read from a text has for every setting what
the text gives for it, and the text has no more than one site for it. -/
theorem gives_readText {text : String} {layer : Layer}
    (h : Layer.schema.readText text = .ok layer) : Gives [] .empty (entries text) layer := by
  obtain ⟨c, r, hc, hr, rfl⟩ := document_eq_ok h
  rw [entries, members, elements, hc]
  dsimp only
  rw [Schema.read] at hr
  split at hr
  · next hbrace =>
    rw [if_pos hbrace, if_neg (by rw [hbrace]; decide), List.zip_nil_right, List.append_nil]
    obtain ⟨n, hn, hr⟩ := bind_eq_ok_iff.1 hr
    rw [hn]
    cases n with
    | done closing =>
      obtain ⟨whole, hwhole, hr⟩ := bind_eq_ok_iff.1 hr
      cases hwhole
      cases hr
      exact Gives.nil _ _
    | more d =>
      obtain ⟨r', hr', hr⟩ := bind_eq_ok_iff.1 hr
      cases hr
      obtain ⟨members, hmembers, hgives⟩ := gives_members hr'
      dsimp only
      rw [hmembers]
      exact hgives
  · next hbrace =>
    rw [if_neg hbrace]
    split at hr
    · next hbracket =>
      rw [if_pos hbracket]
      obtain ⟨n, hn, hr⟩ := bind_eq_ok_iff.1 hr
      rw [hn]
      cases n with
      | done closing =>
        -- a list leaves out nothing
        obtain ⟨whole, hwhole, -⟩ := bind_eq_ok_iff.1 hr
        cases hwhole
      | more d =>
        obtain ⟨r', hr', hr⟩ := bind_eq_ok_iff.1 hr
        cases hr
        rw [fields_eq] at hr'
        obtain ⟨ps, hps, hgives⟩ :=
          gives_positional (by decide) (fun _ _ => List.not_mem_nil) hr'
        dsimp only
        rw [hps]
        exact hgives
    · cases hr

/-- A layer that is read from a text has for every setting what the text gives for it. -/
theorem value?_of_readText {text : String} {layer : Layer}
    (h : Layer.schema.readText text = .ok layer) (k : SettingKey) :
    layer.value? k = k.given? text := by
  rw [(gives_readText h).value, given?]
  rcases (entries text).lookup k with _ | site
  · exact Layer.value?_empty k
  · rfl

end SettingKey

end ModuleLookup
