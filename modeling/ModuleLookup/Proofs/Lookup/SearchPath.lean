import ModuleLookup.CommandLine.Run
import ModuleLookup.Disk.Memory
import ModuleLookup.Proofs.Path.Ancestors

/-!
# The directories that hold packages

The search path is written from the segments of a normal form, one candidate for each of its
first parts. Where the segments are names below the root, these parts are the ancestors and the
search goes outwards, directory by directory. The segments of a relative path may begin with
`..`, and to leave out the last of several `..` is to go inwards again.

* `hosts` — the directories that the candidates lie in; `searchPath_eq_map_hosts`.
* `searchPath_of_isAbsolute` — from an absolute directory, the hosts are the ancestors but for
  those that are candidates themselves; `searchPath_absolute` says what follows.
* `GoesOutwards` — a search looks only around its start, and each time further outwards.
* `sublist_leads_hosts` and `not_goesOutwards` — from a relative directory it does with at most
  one `..` in front, and never with more; `goesOutwards_iff_climbs_le_one` puts them together.
-/

namespace ModuleLookup

/-! ## Hosts -/

/-- The hosts for segments given innermost first. -/
def hostsAbove : List String → List Path
  | [] => []
  | s :: outer =>
    if s = packageDirectory then hostsAbove outer
    else Path.ofSegments (s :: outer).reverse :: hostsAbove outer

/-- The directories that the candidates of a search lie in, in order. -/
def hosts (start : Path) : List Path :=
  hostsAbove start.split.reverse

theorem candidatesAbove_eq_map_hostsAbove (segments : List String) :
    candidatesAbove segments = (hostsAbove segments).map (·.join ⟨packageDirectory⟩) := by
  induction segments with
  | nil => rfl
  | cons s outer ih =>
    rw [candidatesAbove, hostsAbove]
    split
    · exact ih
    · rw [List.map_cons, ih]

/-- Each candidate is the package directory of a host. -/
theorem searchPath_eq_map_hosts (start : Path) :
    searchPath start = (hosts start).map (·.join ⟨packageDirectory⟩) :=
  candidatesAbove_eq_map_hostsAbove start.split.reverse

/-! ## From absolute directories -/

section Absolute

variable {start : Path} {names : List String}

/-- Whether a place is no package directory itself. -/
def isHostPlace (names : List String) : Bool :=
  decide (names.head? ≠ some packageDirectory)

theorem split_reverse_of_isAbsolute (h : start.isAbsolute = true) :
    start.split.reverse = start.lead [] ++ ["/"] := by
  obtain ⟨hnames, hnormal⟩ := Path.normalize_of_isAbsolute h
  rw [Path.split, hnormal, Path.components_atPlace hnames, List.map_cons, List.map_reverse,
    List.map_map, List.reverse_cons, List.reverse_reverse]
  exact congrArg (· ++ ["/"]) (List.map_id _)

theorem ofSegments_place (names : List String) :
    Path.ofSegments (names ++ ["/"]).reverse = Path.atPlace names := by
  rw [List.reverse_append, Path.atPlace, Path.ofComponents, List.map_cons, List.map_reverse,
    List.map_map]
  exact congrArg (fun segments => Path.ofSegments ("/" :: segments.reverse)) (List.map_id _).symm

/-- Below the root the hosts are the places around, but for package directories. -/
theorem hostsAbove_place (names : List String) :
    hostsAbove (names ++ ["/"]) = (names.tails.filter isHostPlace).map Path.atPlace := by
  induction names with
  | nil =>
    have hroot : hostsAbove ["/"] = [Path.ofSegments ["/"]] := if_neg (by decide)
    exact hroot
  | cons s names ih =>
    rw [List.cons_append, hostsAbove, List.tails_cons]
    split
    · next hs =>
      have hhost : ¬isHostPlace (s :: names) = true := by simp [isHostPlace, hs]
      rw [ih, List.filter_cons_of_neg hhost]
    · next hs =>
      have hhost : isHostPlace (s :: names) = true := by simp [isHostPlace, hs]
      rw [ih, List.filter_cons_of_pos hhost, List.map_cons, ← List.cons_append, ofSegments_place]

theorem fileName?_atPlace (h : ∀ s ∈ names, ProperName s) :
    (Path.atPlace names).fileName? = names.head? := by
  rw [Path.fileName?, Path.components_atPlace h]
  cases names with
  | nil => rfl
  | cons s names => simp [List.getLast?_cons]

/-- The search path, from the names on the way to the requesting directory. -/
theorem searchPath_eq_places (h : start.isAbsolute = true) :
    searchPath start = ((start.lead []).tails.filter isHostPlace).map
      fun names => (Path.atPlace names).join ⟨packageDirectory⟩ := by
  rw [searchPath_eq_map_hosts, hosts, split_reverse_of_isAbsolute h, hostsAbove_place,
    List.map_map]
  rfl

/-- **From an absolute directory** the hosts are the ancestors of its normal form that are no
package directories. -/
theorem searchPath_of_isAbsolute (h : start.isAbsolute = true) :
    searchPath start = (start.normalize.ancestors.filter fun dir =>
      decide (dir.fileName? ≠ some packageDirectory)).map (·.join ⟨packageDirectory⟩) := by
  obtain ⟨hnames, hnormal⟩ := Path.normalize_of_isAbsolute h
  have hhost : ∀ names ∈ (start.lead []).tails, isHostPlace names
      = decide ((Path.atPlace names).fileName? ≠ some packageDirectory) := by
    intro names hmem
    have hproper : ∀ s ∈ names, ProperName s := fun s hs =>
      hnames s (((List.mem_tails _ _).1 hmem).subset hs)
    rw [fileName?_atPlace hproper, isHostPlace]
  rw [hnormal, Path.ancestors_atPlace hnames, List.filter_map, List.map_map,
    searchPath_eq_places h, List.filter_congr hhost]
  rfl

/-- The places around a place lie around each other. -/
theorem pairwise_tails (names : List String) :
    names.tails.Pairwise fun near far => far <:+ near ∧ far.length < near.length := by
  induction names with
  | nil => exact List.pairwise_singleton _ _
  | cons s names ih =>
    rw [List.tails_cons]
    refine List.pairwise_cons.2 ⟨fun far hfar => ?_, ih⟩
    have htail := (List.mem_tails _ _).1 hfar
    exact ⟨htail.trans (List.suffix_cons s names), Nat.lt_succ_of_le htail.length_le⟩

theorem properName_packageDirectory : ProperName packageDirectory := by
  decide

/-- A candidate is a package directory in a place that is none itself. -/
theorem components_of_mem_searchPath (h : start.isAbsolute = true) {p : Path}
    (hp : p ∈ searchPath start) : ∃ names ∈ (start.lead []).tails, isHostPlace names = true ∧
      p.components = .root :: (names.map Component.name).reverse ++ [.name packageDirectory] := by
  rw [searchPath_eq_places h] at hp
  obtain ⟨names, hmem, rfl⟩ := List.mem_map.1 hp
  obtain ⟨htail, hhost⟩ := List.mem_filter.1 hmem
  refine ⟨names, htail, hhost, ?_⟩
  rw [Path.components_join_name properName_packageDirectory, Path.components_atPlace]
  exact fun s hs => (Path.normalize_of_isAbsolute h).1 s (((List.mem_tails _ _).1 htail).subset hs)

/-- Nearer candidates are deeper. -/
theorem pairwise_length_searchPath (h : start.isAbsolute = true) :
    (searchPath start).Pairwise fun p q => q.components.length < p.components.length := by
  have hlength : ∀ names ∈ (start.lead []).tails.filter isHostPlace,
      ((Path.atPlace names).join ⟨packageDirectory⟩).components.length = names.length + 2 := by
    intro names hmem
    have htail := (List.mem_tails _ _).1 (List.mem_filter.1 hmem).1
    rw [Path.components_join_name properName_packageDirectory, Path.components_atPlace
      fun s hs => (Path.normalize_of_isAbsolute h).1 s (htail.subset hs)]
    simp
  rw [searchPath_eq_places h, List.pairwise_map]
  refine ((pairwise_tails (start.lead [])).filter isHostPlace).imp_of_mem ?_
  intro near far hnear hfar hout
  rw [hlength near hnear, hlength far hfar]
  exact Nat.add_lt_add_right hout.2 2

/-- The last candidate is the one at the root. -/
theorem getLast?_searchPath (h : start.isAbsolute = true) :
    (searchPath start).getLast? = some ⟨"/node_modules"⟩ := by
  have hroot (names : List String) :
      (names.tails.filter isHostPlace).getLast? = some [] := by
    induction names with
    | nil => rfl
    | cons s names ih =>
      rw [List.tails_cons, List.filter_cons]
      split
      · rw [List.getLast?_cons, ih]
        rfl
      · exact ih
  rw [searchPath_eq_places h, List.getLast?_map, hroot]
  exact congrArg some (by decide +kernel)

/-- No candidate lies in a package directory directly. -/
theorem not_nested_of_mem_searchPath (h : start.isAbsolute = true) {p : Path}
    (hp : p ∈ searchPath start) :
    ¬[Component.name packageDirectory, .name packageDirectory] <:+ p.components := by
  obtain ⟨names, -, hhost, hc⟩ := components_of_mem_searchPath h hp
  rintro ⟨front, hfront⟩
  rw [hc, List.append_cons front] at hfront
  have hplace := (List.append_inj_left' hfront rfl).symm
  cases names with
  | nil =>
    have hlast := congrArg List.getLast? hplace
    rw [List.getLast?_concat] at hlast
    cases hlast
  | cons s names =>
    rw [List.map_cons, List.reverse_cons, ← List.cons_append] at hplace
    obtain rfl := Component.name.inj (List.cons.inj (List.append_inj_right' hplace rfl)).1
    exact absurd hhost (by simp [isHostPlace])

/-- A name more on the way to the requesting directory is one candidate more, unless it names a
package directory. -/
theorem searchPath_join_name (h : start.isAbsolute = true) {x : String} (hx : ProperName x) :
    searchPath (start.join ⟨x⟩) = if x = packageDirectory then searchPath start
      else (start.normalize.join ⟨x⟩).join ⟨packageDirectory⟩ :: searchPath start := by
  have hjoin : (start.join ⟨x⟩).isAbsolute = true := by
    rw [Path.isAbsolute_join, h, Bool.or_true]
  have hlead : (start.join ⟨x⟩).lead [] = x :: start.lead [] := by
    rw [Path.lead_join, Path.lead_name hx]
  rw [searchPath_eq_places hjoin, hlead, List.tails_cons]
  split
  · next hpackage =>
    have hhost : ¬isHostPlace (x :: start.lead []) = true := by simp [isHostPlace, hpackage]
    rw [List.filter_cons_of_neg hhost, searchPath_eq_places h]
  · next hpackage =>
    have hhost : isHostPlace (x :: start.lead []) = true := by simp [isHostPlace, hpackage]
    rw [List.filter_cons_of_pos hhost, List.map_cons, searchPath_eq_places h,
      (Path.normalize_of_isAbsolute h).2, Path.atPlace_cons]

/-- **The search path of an absolute directory** is the package directory of every ancestor of
its normal form that is none itself, each once, nearest first and the one at the root last. No
candidate is nested directly in another. One name more on the way is one candidate more in front,
or none if the name is that of package directories. -/
theorem searchPath_absolute (start : Path) (h : start.isAbsolute = true) :
    searchPath start = (start.normalize.ancestors.filter fun dir =>
        decide (dir.fileName? ≠ some packageDirectory)).map (·.join ⟨packageDirectory⟩) ∧
      (searchPath start).Nodup ∧
      (searchPath start).Pairwise (fun p q => q.components.length < p.components.length) ∧
      (searchPath start).getLast? = some ⟨"/node_modules"⟩ ∧
      (∀ p ∈ searchPath start, p.fileName? = some packageDirectory ∧
        ¬[Component.name packageDirectory, .name packageDirectory] <:+ p.components) ∧
      ∀ x, ProperName x → searchPath (start.join ⟨x⟩) = if x = packageDirectory
        then searchPath start
        else (start.normalize.join ⟨x⟩).join ⟨packageDirectory⟩ :: searchPath start := by
  have hdepth := pairwise_length_searchPath h
  refine ⟨searchPath_of_isAbsolute h, ?_, hdepth, getLast?_searchPath h, fun p hp => ⟨?_, ?_⟩,
    fun x hx => searchPath_join_name h hx⟩
  · exact hdepth.imp fun {p q} hlt heq => absurd hlt (by rw [heq]; exact Nat.lt_irrefl _)
  · obtain ⟨names, -, -, hc⟩ := components_of_mem_searchPath h hp
    rw [Path.fileName?, hc, List.getLast?_concat]
  · exact not_nested_of_mem_searchPath h hp

/-- Inside a package that lies in two package directories, one of them entered again after it was
left. -/
theorem searchPath_absolute_nested :
    (Path.mk "/a/node_modules/b/../node_modules/").isAbsolute = true ∧ ProperName "c" ∧
      searchPath ((Path.mk "/a/node_modules/b/../node_modules/").join ⟨"c"⟩)
        = ⟨"/a/node_modules/node_modules/c/node_modules"⟩
          :: searchPath ⟨"/a/node_modules/b/../node_modules/"⟩ ∧
      searchPath ⟨"/a/node_modules/b/../node_modules/"⟩
        = [⟨"/a/node_modules"⟩, ⟨"/node_modules"⟩] := by
  have h : (Path.mk "/a/node_modules/b/../node_modules/").isAbsolute = true := by decide +kernel
  have hc : ProperName "c" := by decide
  refine ⟨h, hc, ?_, by decide +kernel⟩
  rw [(searchPath_absolute _ h).2.2.2.2.2 "c" hc, if_neg (by decide)]
  exact congrArg (· :: _) (by decide +kernel)

end Absolute

/-! ## From relative directories -/

/-- The number of `..` in front of a normal form. -/
def Path.climbs (p : Path) : Nat :=
  (p.normalComponents.takeWhile fun c => decide (c = .parent)).length

/-- A search goes outwards when it looks in directories around the one where it starts, and each
time in one around those before. What a relative path means is seen from a directory `base`. -/
structure GoesOutwards (base start : Path) : Prop where
  /-- every host lies around the requesting directory, or is that directory -/
  around : ∀ host ∈ hosts start,
    (base.join host).normalize ∈ (base.join start).normalize.ancestors
  /-- a later host lies around every earlier one -/
  outwards : (hosts start).Pairwise fun host next =>
    (base.join next).normalize ∈ (base.join host).normalize.ancestors ∧
      (base.join next).normalize ≠ (base.join host).normalize

section Relative

variable {base start : Path} {place : List String}

theorem lead_ofSegments_concat {s : String} (h : ProperName s) (segments : List String) :
    (Path.ofSegments (segments ++ [s])).lead place
      = s :: (Path.ofSegments segments).lead place := by
  rw [Path.ofSegments, List.foldl_append, List.foldl_cons, List.foldl_nil, Path.lead_join,
    Path.lead_name h]
  rfl

/-- The hosts among some names lead to places around the last of them. -/
theorem sublist_leads_hosts {names outer : List String} (h : ∀ s ∈ names, ProperName s)
    (houter : ((hostsAbove outer).map (·.lead place)).Sublist
      ((Path.ofSegments outer.reverse).lead place).tails) :
    ((hostsAbove (names ++ outer)).map (·.lead place)).Sublist
      ((Path.ofSegments (names ++ outer).reverse).lead place).tails := by
  induction names with
  | nil => exact houter
  | cons s names ih =>
    have ih := ih fun t ht => h t (List.mem_cons_of_mem s ht)
    have hlead : (Path.ofSegments (s :: (names ++ outer)).reverse).lead place
        = s :: (Path.ofSegments (names ++ outer).reverse).lead place := by
      rw [List.reverse_cons, lead_ofSegments_concat (h s List.mem_cons_self)]
    rw [List.cons_append, hlead, hostsAbove, List.tails_cons]
    split
    · exact ih.cons _
    · rw [List.map_cons, hlead]
      exact ih.cons_cons _

/-- Seen from an absolute directory, a path means the place that it leads to from there. -/
theorem normalize_join_of_isAbsolute (hb : base.isAbsolute = true) (p : Path) :
    (∀ s ∈ p.lead (base.lead []), ProperName s) ∧
      (base.join p).normalize = Path.atPlace (p.lead (base.lead [])) := by
  have h : (base.join p).isAbsolute = true := by rw [Path.isAbsolute_join, hb, Bool.or_true]
  rw [← Path.lead_join]
  exact Path.normalize_of_isAbsolute h

/-- Seen from an absolute directory, a path lies around another just when it leads to a place
around that of the other. -/
theorem mem_ancestors_join_iff (hb : base.isAbsolute = true) (p q : Path) :
    (base.join p).normalize ∈ (base.join q).normalize.ancestors ↔
      p.lead (base.lead []) <:+ q.lead (base.lead []) := by
  obtain ⟨hp, hpnormal⟩ := normalize_join_of_isAbsolute hb p
  obtain ⟨hq, hqnormal⟩ := normalize_join_of_isAbsolute hb q
  rw [hpnormal, hqnormal, Path.ancestors_atPlace hq]
  constructor
  · intro h
    obtain ⟨names, hnames, heq⟩ := List.mem_map.1 h
    have hsuffix := (List.mem_tails _ _).1 hnames
    rw [Path.atPlace_inj (fun s hs => hq s (hsuffix.subset hs)) hp] at heq
    rwa [← heq]
  · exact fun h => List.mem_map_of_mem ((List.mem_tails _ _).2 h)

/-- A search goes outwards when its hosts lead to places around its start, in this order. -/
theorem goesOutwards_of_sublist (hb : base.isAbsolute = true)
    (h : ((hosts start).map (·.lead (base.lead []))).Sublist (start.lead (base.lead [])).tails) :
    GoesOutwards base start where
  around host hhost := by
    rw [mem_ancestors_join_iff hb]
    exact (List.mem_tails _ _).1 (h.subset (List.mem_map_of_mem hhost))
  outwards := by
    refine (List.pairwise_map.1 ((pairwise_tails _).sublist h)).imp fun {host next} hout => ?_
    refine ⟨(mem_ancestors_join_iff hb next host).2 hout.1, fun heq => ?_⟩
    obtain ⟨hhost, hnormal⟩ := normalize_join_of_isAbsolute hb host
    obtain ⟨hnext, hnormal'⟩ := normalize_join_of_isAbsolute hb next
    rw [hnormal, hnormal', Path.atPlace_inj hnext hhost] at heq
    exact absurd hout.2 (by rw [heq]; exact Nat.lt_irrefl _)

/-! ### Directories in front of the names -/

theorem lead_ofSegments_parents (n : Nat) :
    (Path.ofSegments (List.replicate n "..").reverse).lead place = place.drop n := by
  induction n with
  | zero => rfl
  | succ n ih =>
    have hconcat (segments : List String) : Path.ofSegments (segments ++ [".."])
        = (Path.ofSegments segments).join ⟨".."⟩ := by
      rw [Path.ofSegments, List.foldl_append]
      rfl
    rw [List.replicate_succ, List.reverse_cons, hconcat, Path.lead_join, ih, ← List.drop_drop,
      List.drop_one]
    rfl

/-- The hosts above some names are those of what stands in front of the names. -/
theorem suffix_hostsAbove (names outer : List String) :
    hostsAbove outer <:+ hostsAbove (names ++ outer) := by
  induction names with
  | nil => exact List.suffix_refl _
  | cons s names ih =>
    rw [List.cons_append, hostsAbove]
    split
    · exact ih
    · exact ih.trans (List.suffix_cons _ _)

theorem climbs_of_parents {n : Nat} {names : List String}
    (h : start.normalComponents = List.replicate n .parent ++ names.map Component.name) :
    start.climbs = n := by
  have hnames : (names.map Component.name).takeWhile (fun c => decide (c = .parent)) = [] := by
    cases names <;> rfl
  rw [Path.climbs, h, List.takeWhile_append_of_pos, hnames, List.append_nil, List.length_replicate]
  intro c hc
  exact decide_eq_true (List.eq_of_mem_replicate hc)

/-- The segments of a relative path, innermost first: names and then the `..` in front of them, or
a lone `.`. -/
theorem exists_split_reverse_eq (h : start.isAbsolute = false) :
    (start.split.reverse = ["."] ∧ start.climbs = 0) ∨
      ∃ names : List String, (∀ s ∈ names, ProperName s) ∧
        start.split.reverse = names ++ List.replicate start.climbs ".." := by
  obtain ⟨names, hnames, hroot | ⟨n, hcs⟩⟩ := Path.exists_normalComponents_eq start
  · have hmem : Component.root ∈ start.normalComponents := hroot ▸ List.mem_cons_self
    rw [Path.root_mem_normalComponents_iff.1 hmem] at h
    cases h
  · have hclimbs := climbs_of_parents hcs
    by_cases hnil : start.normalComponents = []
    · left
      rw [Path.split_of_eq_nil hnil, Path.climbs, hnil]
      exact ⟨rfl, rfl⟩
    · right
      refine ⟨names.reverse, fun s hs => hnames s (List.mem_reverse.1 hs), ?_⟩
      rw [Path.split_of_ne_nil hnil, hcs, hclimbs, List.map_append, List.map_replicate,
        List.map_map, List.reverse_append, List.reverse_replicate]
      exact congrArg (·.reverse ++ _) (List.map_id names)

theorem lead_ofSegments_split (start : Path) (place : List String) :
    (Path.ofSegments start.split.reverse.reverse).lead place = start.lead place := by
  rw [List.reverse_reverse, Path.ofSegments_split, Path.lead_normalize]

/-- A single segment is a host, and it leads to itself. -/
theorem sublist_leads_singleton {s : String} (hs : s ≠ packageDirectory) :
    ((hostsAbove [s]).map (·.lead place)).Sublist
      ((Path.ofSegments [s].reverse).lead place).tails := by
  rw [hostsAbove, if_neg hs, hostsAbove, List.map_cons, List.map_nil, List.singleton_sublist,
    List.mem_tails]

/-- With at most one `..` in front, a search goes outwards. -/
theorem goesOutwards_of_climbs_le_one (hb : base.isAbsolute = true) (hs : start.isAbsolute = false)
    (h : start.climbs ≤ 1) : GoesOutwards base start := by
  refine goesOutwards_of_sublist hb ?_
  rw [← lead_ofSegments_split start, hosts]
  obtain ⟨hsplit, -⟩ | ⟨names, hnames, hsplit⟩ := exists_split_reverse_eq hs
  · rw [hsplit]
    exact sublist_leads_singleton (by decide)
  · rw [hsplit]
    refine sublist_leads_hosts hnames ?_
    obtain hzero | hone : start.climbs = 0 ∨ start.climbs = 1 := by omega
    · rw [hzero]
      exact List.nil_sublist _
    · rw [hone]
      exact sublist_leads_singleton (by decide)

/-- With more of them, a search goes inwards again: leaving out the last `..` leads to a place
further in. -/
theorem not_goesOutwards (hb : base.isAbsolute = true) (hs : start.isAbsolute = false)
    (h : 2 ≤ start.climbs) : ¬GoesOutwards base start := by
  intro hout
  obtain ⟨n, hn⟩ : ∃ n, start.climbs = n + 2 := ⟨start.climbs - 2, by omega⟩
  obtain ⟨-, hzero⟩ | ⟨names, -, hsplit⟩ := exists_split_reverse_eq hs
  · omega
  · have hsuffix := suffix_hostsAbove names (List.replicate start.climbs "..")
    have hcons (m : Nat) : hostsAbove (List.replicate (m + 1) "..")
        = Path.ofSegments (List.replicate (m + 1) "..").reverse
          :: hostsAbove (List.replicate m "..") := by
      rw [List.replicate_succ, hostsAbove, if_neg (by decide)]
    have hpair := hout.outwards
    rw [hosts, hsplit] at hpair
    replace hpair := hpair.sublist hsuffix.sublist
    rw [hn, hcons, hcons] at hpair
    obtain ⟨hmem, hne⟩ := (List.pairwise_cons.1 hpair).1 _ List.mem_cons_self
    rw [mem_ancestors_join_iff hb, lead_ofSegments_parents, lead_ofSegments_parents] at hmem
    rw [(normalize_join_of_isAbsolute hb _).2, (normalize_join_of_isAbsolute hb _).2,
      lead_ofSegments_parents, lead_ofSegments_parents] at hne
    have hback : (base.lead []).drop (n + 2) <:+ (base.lead []).drop (n + 1) :=
      List.drop_suffix_drop_left _ (Nat.le_succ (n + 1))
    exact hne (congrArg Path.atPlace (hmem.eq_of_length_le hback.length_le))

/-! ### Requesting directories -/

theorem isAbsolute_of_parent? {p q : Path} (h : p.parent? = some q) (hp : p.isAbsolute = false) :
    q.isAbsolute = false := by
  obtain ⟨c, hc⟩ := Path.components_eq_append_of_parent? h
  cases hq : q.isAbsolute with
  | false => rfl
  | true =>
    have hhead : p.components.head? = some .root := by
      rw [hc, List.head?_append, Path.isAbsolute_iff_head?.1 hq, Option.some_or]
    rw [Path.isAbsolute_iff_head?.2 hhead] at hp
    cases hp

/-- Lookups start in a relative directory when the working directory is given as one and they are
not told to start elsewhere by an absolute path. -/
theorem isAbsolute_run_startDirectory {d : Disk} {cwd : Path} {where? : Option Path}
    (hc : cwd.isAbsolute = false) (hw : ∀ p ∈ where?, p.isAbsolute = false) :
    ((startDirectory cwd where?).run d).isAbsolute = false := by
  cases where? with
  | none => exact hc
  | some p =>
    have hjoin : (cwd.join p).isAbsolute = false := by
      rw [Path.isAbsolute_join, hw p rfl, hc, Bool.or_false]
    rw [startDirectory, Program.run_bind]
    split
    · rcases hp : (cwd.join p).parent? with _ | dir
      · exact hc
      · exact isAbsolute_of_parent? hp hjoin
    · exact hjoin

end Relative

/-- **The search path of a relative directory** goes outwards, whatever directory it is seen from,
just when its normal form begins with at most one `..`. Each candidate lies in a host, and lookups
have a relative requesting directory when the working directory is relative. -/
theorem goesOutwards_iff_climbs_le_one (start : Path) :
    searchPath start = (hosts start).map (·.join ⟨packageDirectory⟩) ∧
      (start.isAbsolute = false → ∀ base : Path, base.isAbsolute = true →
        (GoesOutwards base start ↔ start.climbs ≤ 1)) ∧
      ∀ (d : Disk) (cwd : Path) (where? : Option Path), cwd.isAbsolute = false →
        (∀ p ∈ where?, p.isAbsolute = false) →
          ((startDirectory cwd where?).run d).isAbsolute = false := by
  refine ⟨searchPath_eq_map_hosts start, fun hs base hb => ⟨fun h => ?_, ?_⟩,
    fun d cwd where? => isAbsolute_run_startDirectory⟩
  · exact Nat.le_of_not_lt fun hclimbs => not_goesOutwards hb hs hclimbs h
  · exact goesOutwards_of_climbs_le_one hb hs

/-- One `..` in front of a package in a package directory. -/
theorem goesOutwards_iff_climbs_le_one_once :
    (Path.mk "/x").isAbsolute = true ∧ (Path.mk "../node_modules/a").isAbsolute = false ∧
      GoesOutwards ⟨"/x"⟩ ⟨"../node_modules/a"⟩ ∧
      searchPath ⟨"../node_modules/a"⟩
        = [⟨"../node_modules/a/node_modules"⟩, ⟨"../node_modules"⟩] ∧
      ((startDirectory ⟨"."⟩ (some ⟨"../node_modules/a"⟩)).run Memory.empty.disk).isAbsolute
        = false := by
  have hb : (Path.mk "/x").isAbsolute = true := by decide +kernel
  have hs : (Path.mk "../node_modules/a").isAbsolute = false := by decide +kernel
  have hclimbs : (Path.mk "../node_modules/a").climbs ≤ 1 := by decide +kernel
  obtain ⟨-, hout, hstart⟩ := goesOutwards_iff_climbs_le_one ⟨"../node_modules/a"⟩
  refine ⟨hb, hs, (hout hs _ hb).2 hclimbs, by decide +kernel, ?_⟩
  refine hstart _ _ _ (by decide +kernel) fun p hp => ?_
  rwa [← Option.some.inj (Option.mem_def.1 hp)]

/-- From a directory two levels up, as seen from `/x/y/z`, the search looks in `/x` and then in
`/x/y`, which does not lie around it. -/
theorem not_mem_ancestors_between :
    (Path.mk "../..").climbs < (Path.mk "/x/y/z").components.length ∧
      searchPath ⟨"../.."⟩ = [⟨"../../node_modules"⟩, ⟨"../node_modules"⟩] ∧
      ((Path.mk "/x/y/z").join ⟨".."⟩).normalize
        ∉ ((Path.mk "/x/y/z").join ⟨"../.."⟩).normalize.ancestors := by
  refine ⟨by decide +kernel, by decide +kernel, ?_⟩
  rw [mem_ancestors_join_iff (by decide +kernel)]
  decide +kernel

end ModuleLookup
