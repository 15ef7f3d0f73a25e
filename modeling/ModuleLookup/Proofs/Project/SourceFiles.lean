import ModuleLookup.Disk.Tree
import ModuleLookup.Project.SourceFiles
import ModuleLookup.Proofs.Lookup.Candidates
import ModuleLookup.Proofs.Path.Normal
import ModuleLookup.Proofs.Path.Order

/-!
# Source files of a tree

The source files are looked for in what can be seen of a tree from the root of the project. Here
the list is read back in the tree itself: which files it has, that it has each of them once, and
that the order in which directories list their entries leaves no trace in it.

* `Node.HoldsFile`, `Node.Listable` — the files that count, and when all directories that have to
  be listed can be.
* `Node.mem_filesAt_iff`, `Node.pairwise_filesAt` — just these files are found, on different paths;
  `Node.closedAt_eq_nil_iff` — nothing is in the way just when everything can be listed.
* `Node.Relisted` — the same directories with their entries in other orders;
  `Relisted.exists_at?` — everything stays where it is.
* `sourceFiles_exact` — the list of source files.
-/

namespace ModuleLookup

/-- The path that goes on from a path with these names. -/
def Path.inwards (root : Path) (names : List String) : Path :=
  names.foldl (fun dir name => dir.join ⟨name⟩) root

/-- A directory of this name is not passed over. -/
def Passable (name : String) : Prop :=
  name ≠ "node_modules" ∧ name ≠ ".git"

instance (name : String) : Decidable (Passable name) :=
  inferInstanceAs (Decidable (_ ∧ _))

namespace Node

/-- In every directory the entries have names that a path can hold, all of them different. -/
inductive WellNamed : Node → Prop where
  /-- a file -/
  | file (bytes : List UInt8) (written : Nat) : WellNamed (file bytes written)
  /-- a socket -/
  | socket : WellNamed socket
  /-- a directory -/
  | directory {entries : List (String × Node)} (proper : ∀ e ∈ entries, ProperName e.1)
      (nodup : (entries.map Prod.fst).Nodup) (inside : ∀ e ∈ entries, WellNamed e.2) :
      WellNamed (directory entries)

/-- A node with the entries of its directories listed in another order. -/
inductive Relisted : Node → Node → Prop where
  /-- in the same order -/
  | refl (n : Node) : Relisted n n
  /-- the entries of a directory in another order -/
  | perm {entries others : List (String × Node)} (h : entries.Perm others) :
      Relisted (directory entries) (directory others)
  /-- in one of the entries of a directory -/
  | inside (before after : List (String × Node)) (name : String) {n m : Node}
      (h : Relisted n m) :
      Relisted (directory (before ++ (name, n) :: after))
        (directory (before ++ (name, m) :: after))
  /-- one after the other -/
  | trans {n m k : Node} (h : Relisted n m) (h' : Relisted m k) : Relisted n k

/-- There is a file at the end of these names, and no directory on the way is passed over. -/
def HoldsFile (n : Node) (names : List String) : Prop :=
  (∃ bytes written, n.at? names = some (file bytes written)) ∧
    ∀ name ∈ names.dropLast, Passable name

/-- All directories that are not passed over can be listed: their paths are not too long. -/
def Listable (n : Node) (p : Path) : Prop :=
  ∀ names entries, n.at? names = some (directory entries) →
    (∀ name ∈ names, Passable name) → byteLength (p.inwards names).text.toList ≤ pathLimit

/-! ## What stands in a directory -/

theorem lookup_eq_some_iff {entries : List (String × Node)} (h : (entries.map Prod.fst).Nodup)
    {name : String} {n : Node} : entries.lookup name = some n ↔ (name, n) ∈ entries := by
  induction entries with
  | nil => exact ⟨fun hn => (by cases hn), fun hn => absurd hn List.not_mem_nil⟩
  | cons e entries ih =>
    obtain ⟨other, m⟩ := e
    rw [List.map_cons, List.nodup_cons] at h
    by_cases hname : name = other
    · subst hname
      rw [List.lookup_cons_self, List.mem_cons, Option.some.injEq]
      refine ⟨fun hm => .inl (by rw [hm]), fun hn => ?_⟩
      rcases hn with hn | hn
      · cases hn
        rfl
      · exact absurd (List.mem_map.2 ⟨_, hn, rfl⟩) h.1
    · rw [List.lookup_cons, beq_eq_false_iff_ne.2 hname, ih h.2, List.mem_cons]
      refine ⟨.inr, fun hn => hn.resolve_left fun heq => hname ?_⟩
      cases heq
      rfl

theorem at?_directory_cons {entries : List (String × Node)}
    (h : (entries.map Prod.fst).Nodup) {name : String} {names : List String} {m : Node} :
    (directory entries).at? (name :: names) = some m ↔
      ∃ n, (name, n) ∈ entries ∧ n.at? names = some m := by
  rw [at?, child?, Option.bind_eq_some_iff]
  exact exists_congr fun n => and_congr_left fun _ => lookup_eq_some_iff h

/-- Where something stands, all names on the way can be held by a path. -/
theorem WellNamed.properName {n m : Node} (hn : n.WellNamed) {names : List String}
    (hm : n.at? names = some m) : ∀ s ∈ names, ProperName s := by
  induction names generalizing n with
  | nil => exact fun s hs => absurd hs List.not_mem_nil
  | cons name names ih =>
    cases hn with
    | file | socket => cases hm
    | directory hproper hnodup hinside =>
      obtain ⟨k, hk, hm⟩ := (at?_directory_cons hnodup).1 hm
      exact List.forall_mem_cons.2 ⟨hproper _ hk, ih (hinside _ hk) hm⟩

/-- Only a directory that holds a file must not be passed over. -/
theorem holdsFile_directory_cons {entries : List (String × Node)}
    (h : (entries.map Prod.fst).Nodup) {name : String} {names : List String} :
    (directory entries).HoldsFile (name :: names) ↔ ∃ n, (name, n) ∈ entries ∧
      (n.isDirectory = true → Passable name) ∧ n.HoldsFile names := by
  constructor
  · rintro ⟨⟨bytes, written, hfile⟩, hpass⟩
    obtain ⟨n, hn, hfile⟩ := (at?_directory_cons h).1 hfile
    cases names with
    | nil =>
      cases hfile
      exact ⟨_, hn, fun hd => (by cases hd), ⟨bytes, written, rfl⟩, hpass⟩
    | cons other names =>
      rw [List.dropLast_cons_cons] at hpass
      exact ⟨n, hn, fun _ => hpass name List.mem_cons_self,
        ⟨bytes, written, hfile⟩, fun s hs => hpass s (List.mem_cons_of_mem name hs)⟩
  · rintro ⟨n, hn, hname, ⟨bytes, written, hfile⟩, hpass⟩
    refine ⟨⟨bytes, written, (at?_directory_cons h).2 ⟨n, hn, hfile⟩⟩, ?_⟩
    cases names with
    | nil => exact fun s hs => absurd hs List.not_mem_nil
    | cons other names =>
      rw [List.dropLast_cons_cons]
      refine List.forall_mem_cons.2 ⟨hname ?_, hpass⟩
      cases n with
      | file | socket => cases hfile
      | directory => rfl

/-- Only directories have to be listed. -/
theorem listable_of_not_isDirectory {n : Node} (h : n.isDirectory = false) (p : Path) :
    n.Listable p := by
  intro names entries hat
  cases n with
  | directory => cases h
  | file | socket => cases names <;> cases hat

theorem listable_directory_iff {entries : List (String × Node)}
    (h : (entries.map Prod.fst).Nodup) {p : Path} :
    (directory entries).Listable p ↔ byteLength p.text.toList ≤ pathLimit ∧
      ∀ e ∈ entries, Passable e.1 → e.2.Listable (p.join ⟨e.1⟩) := by
  constructor
  · refine fun hlist => ⟨hlist [] entries rfl fun s hs => absurd hs List.not_mem_nil, ?_⟩
    rintro ⟨name, n⟩ he hname names inner hn hnames
    exact hlist (name :: names) inner ((at?_directory_cons h).2 ⟨n, he, hn⟩)
      (List.forall_mem_cons.2 ⟨hname, hnames⟩)
  · rintro ⟨hroom, hlist⟩ names inner hn hnames
    cases names with
    | nil => exact hroom
    | cons name names =>
      obtain ⟨n, he, hn⟩ := (at?_directory_cons h).1 hn
      obtain ⟨hname, hnames⟩ := List.forall_mem_cons.1 hnames
      exact hlist (name, n) he hname names inner hn hnames

/-! ## What is seen of it -/

theorem outlines_eq_map (dir : Path) (entries : List (String × Node)) :
    outlines dir entries = entries.map fun e => (e.1, e.2.outline (dir.join ⟨e.1⟩)) := by
  induction entries with
  | nil => rfl
  | cons e entries ih => rw [outlines, ih, List.map_cons]

/-- Directories are passed over by their name, and nothing else is. -/
theorem not_isSkipped_outline_iff (name : String) (n : Node) (p : Path) :
    ¬isSkipped name (n.outline p) = true ↔ (n.isDirectory = true → Passable name) := by
  have hname : ¬skippedDirectories.contains name = true ↔ Passable name := by
    rw [Passable, List.contains_iff_mem, skippedDirectories, List.mem_cons, List.mem_singleton,
      packageDirectory, repositoryDirectory, not_or]
  cases n with
  | file | socket => exact iff_of_true Bool.false_ne_true fun h => (by cases h)
  | directory entries =>
    rw [outline]
    split <;> exact hname.trans ⟨fun h _ => h, fun h => h rfl⟩

/-- What is not passed over in a directory that can be listed can be listed as well. -/
theorem Listable.entry {entries : List (String × Node)} (h : (entries.map Prod.fst).Nodup)
    {p : Path} (hlist : (directory entries).Listable p) {e : String × Node} (he : e ∈ entries)
    (hpass : e.2.isDirectory = true → Passable e.1) : e.2.Listable (p.join ⟨e.1⟩) := by
  obtain ⟨name, n⟩ := e
  cases n with
  | file | socket => exact listable_of_not_isDirectory rfl _
  | directory inner => exact ((listable_directory_iff h).1 hlist).2 _ he (hpass rfl)

end Node

/-! ## What is found -/

theorem filesIn_eq_flatMap (dir : Path) (os : List (String × Outline)) :
    filesIn dir os
      = os.flatMap fun e => if isSkipped e.1 e.2 then [] else filesAt (dir.join ⟨e.1⟩) e.2 := by
  induction os with
  | nil => rfl
  | cons e os ih => rw [filesIn, ih, List.flatMap_cons]

theorem closedIn_eq_flatMap (dir : Path) (os : List (String × Outline)) :
    closedIn dir os
      = os.flatMap fun e => if isSkipped e.1 e.2 then [] else closedAt (dir.join ⟨e.1⟩) e.2 := by
  induction os with
  | nil => rfl
  | cons e os ih => rw [closedIn, ih, List.flatMap_cons]

namespace Node

variable {n : Node} {p : Path} {entries : List (String × Node)}

theorem outline_directory (h : byteLength p.text.toList ≤ pathLimit) :
    (directory entries).outline p
      = .directory (entries.map fun e => (e.1, e.2.outline (p.join ⟨e.1⟩))) := by
  rw [outline, if_neg (Nat.not_lt.2 h), outlines_eq_map]

/-- The files of a directory are those of its entries that are not passed over. -/
theorem filesAt_directory (h : byteLength p.text.toList ≤ pathLimit) :
    filesAt p ((directory entries).outline p) = entries.flatMap fun e =>
      if isSkipped e.1 (e.2.outline (p.join ⟨e.1⟩)) then []
      else filesAt (p.join ⟨e.1⟩) (e.2.outline (p.join ⟨e.1⟩)) := by
  rw [outline_directory h, filesAt, filesIn_eq_flatMap, List.flatMap_map]

/-- **Nothing is closed** just when everything that is not passed over can be listed. -/
theorem closedAt_eq_nil_iff (hn : n.WellNamed) (p : Path) :
    closedAt p (n.outline p) = [] ↔ n.Listable p := by
  induction hn generalizing p with
  | file | socket => exact iff_of_true rfl (listable_of_not_isDirectory rfl p)
  | @directory entries hproper hnodup hinside ih =>
    rw [listable_directory_iff hnodup]
    by_cases hroom : byteLength p.text.toList ≤ pathLimit
    · rw [outline_directory hroom, closedAt, closedIn_eq_flatMap, List.flatMap_map,
        List.flatMap_eq_nil_iff, and_iff_right hroom]
      refine forall_congr' fun e => forall_congr' fun he => ?_
      have hskip := not_isSkipped_outline_iff e.1 e.2 (p.join ⟨e.1⟩)
      split
      · next hs =>
        -- only a directory is passed over, and only one with such a name
        refine iff_of_true rfl fun hpass => ?_
        exact absurd hs (hskip.2 fun _ => hpass)
      · next hs =>
        rw [ih e he]
        refine ⟨fun h _ => h, fun h => ?_⟩
        cases hd : e.2 with
        | file | socket => exact listable_of_not_isDirectory rfl _
        | directory inner => exact hd ▸ h (hskip.1 hs (by rw [hd]; rfl))
    · rw [outline, if_pos (Nat.not_le.1 hroom), closedAt]
      exact iff_of_false (List.cons_ne_nil _ _) fun h => hroom h.1

/-- **The files that are found** are those that the node holds. -/
theorem mem_filesAt_iff (hn : n.WellNamed) (hlist : n.Listable p) {q : Path} :
    q ∈ filesAt p (n.outline p) ↔ ∃ names, n.HoldsFile names ∧ q = p.inwards names := by
  induction hn generalizing p with
  | file bytes written =>
    change q ∈ [p] ↔ _
    rw [List.mem_singleton]
    constructor
    · rintro rfl
      exact ⟨[], ⟨⟨bytes, written, rfl⟩, fun s hs => absurd hs List.not_mem_nil⟩, rfl⟩
    · rintro ⟨names, ⟨⟨_, _, hfile⟩, -⟩, rfl⟩
      cases names with
      | nil => rfl
      | cons name names => cases hfile
  | socket =>
    refine iff_of_false List.not_mem_nil ?_
    rintro ⟨names, ⟨⟨_, _, hfile⟩, -⟩, -⟩
    cases names <;> cases hfile
  | @directory entries hproper hnodup hinside ih =>
    rw [filesAt_directory ((listable_directory_iff hnodup).1 hlist).1, List.mem_flatMap]
    constructor
    · rintro ⟨e, he, hq⟩
      rw [List.mem_ite_nil_left, not_isSkipped_outline_iff] at hq
      obtain ⟨names, hfile, rfl⟩ := (ih e he (hlist.entry hnodup he hq.1)).1 hq.2
      exact ⟨e.1 :: names, (holdsFile_directory_cons hnodup).2 ⟨e.2, he, hq.1, hfile⟩, rfl⟩
    · rintro ⟨names, hfile, rfl⟩
      cases names with
      | nil =>
        obtain ⟨⟨_, _, hfile⟩, -⟩ := hfile
        cases hfile
      | cons name names =>
        obtain ⟨m, he, hpass, hfile⟩ := (holdsFile_directory_cons hnodup).1 hfile
        refine ⟨(name, m), he, ?_⟩
        rw [List.mem_ite_nil_left, not_isSkipped_outline_iff]
        exact ⟨hpass, (ih _ he (hlist.entry hnodup he hpass)).2 ⟨names, hfile, rfl⟩⟩

end Node

namespace Path

theorem components_inwards (p : Path) {names : List String} (h : ∀ s ∈ names, ProperName s) :
    (p.inwards names).components = p.components ++ names.map Component.name := by
  induction names generalizing p with
  | nil => exact (List.append_nil _).symm
  | cons name names ih =>
    obtain ⟨hname, hnames⟩ := List.forall_mem_cons.1 h
    rw [inwards, List.foldl_cons]
    exact (ih (p.join ⟨name⟩) hnames).trans
      (by rw [components_join_name hname, List.append_assoc]; rfl)

/-- Different names lead to different paths. -/
theorem inwards_inj {p : Path} {names others : List String} (h : ∀ s ∈ names, ProperName s)
    (ho : ∀ s ∈ others, ProperName s) (hsame : (p.inwards names).Same (p.inwards others)) :
    names = others := by
  rw [Same, components_inwards p h, components_inwards p ho, List.append_cancel_left_eq] at hsame
  exact (List.map_inj_right fun s t hst => Component.name.inj hst).1 hsame

end Path

namespace Node

variable {n : Node} {p : Path}

theorem HoldsFile.properName {names : List String} (h : n.HoldsFile names) (hn : n.WellNamed) :
    ∀ s ∈ names, ProperName s := by
  obtain ⟨⟨bytes, written, hfile⟩, -⟩ := h
  exact hn.properName hfile

/-- No file is found on two paths. -/
theorem pairwise_filesAt (hn : n.WellNamed) (hlist : n.Listable p) :
    (filesAt p (n.outline p)).Pairwise fun q r => ¬q.Same r := by
  induction hn generalizing p with
  | file bytes written => exact List.pairwise_singleton _ _
  | socket => exact List.Pairwise.nil
  | @directory entries hproper hnodup hinside ih =>
    rw [filesAt_directory ((listable_directory_iff hnodup).1 hlist).1, List.pairwise_flatMap]
    constructor
    · intro e he
      split
      · exact List.Pairwise.nil
      · next hs =>
        exact ih e he (hlist.entry hnodup he ((not_isSkipped_outline_iff _ _ _).1 hs))
    · have hnames {e : String × Node} (he : e ∈ entries) {q : Path}
          (hq : q ∈ if isSkipped e.1 (e.2.outline (p.join ⟨e.1⟩)) then []
            else filesAt (p.join ⟨e.1⟩) (e.2.outline (p.join ⟨e.1⟩))) :
          ∃ names, q = p.inwards (e.1 :: names) ∧ ∀ s ∈ e.1 :: names, ProperName s := by
        rw [List.mem_ite_nil_left, not_isSkipped_outline_iff] at hq
        obtain ⟨names, hfile, rfl⟩ :=
          (mem_filesAt_iff (hinside e he) (hlist.entry hnodup he hq.1)).1 hq.2
        exact ⟨names, rfl,
          List.forall_mem_cons.2 ⟨hproper e he, hfile.properName (hinside e he)⟩⟩
      refine (List.pairwise_map.1 hnodup).imp_of_mem fun {e f} he hf hne q hq r hr hsame => ?_
      obtain ⟨names, rfl, hproper⟩ := hnames he hq
      obtain ⟨others, rfl, hothers⟩ := hnames hf hr
      exact hne (List.cons.inj (Path.inwards_inj hproper hothers hsame)).1

end Node

/-! ## Another order of entries -/

namespace Node.Relisted

variable {n m k : Node}

theorem symm (h : n.Relisted m) : m.Relisted n := by
  induction h with
  | refl n => exact .refl n
  | perm h => exact .perm h.symm
  | inside before after name _ ih => exact .inside before after name ih
  | trans _ _ ih ih' => exact ih'.trans ih

theorem wellNamed (h : n.Relisted m) (hn : n.WellNamed) : m.WellNamed := by
  induction h with
  | refl n => exact hn
  | perm h =>
    cases hn with
    | directory hproper hnodup hinside =>
      exact .directory (fun e he => hproper e (h.mem_iff.2 he))
        ((h.map Prod.fst).nodup_iff.1 hnodup) fun e he => hinside e (h.mem_iff.2 he)
  | @inside before after name n m _ ih =>
    cases hn with
    | directory hproper hnodup hinside =>
      rw [List.map_append, List.map_cons] at hnodup
      rw [List.forall_mem_append, List.forall_mem_cons] at hproper hinside
      refine .directory ?_ (by rwa [List.map_append, List.map_cons]) ?_
      · rw [List.forall_mem_append, List.forall_mem_cons]
        exact hproper
      · rw [List.forall_mem_append, List.forall_mem_cons]
        exact ⟨hinside.1, ih hinside.2.1, hinside.2.2⟩
  | trans _ _ ih ih' => exact ih' (ih hn)

/-- What stands at a place stands there in another order as well. -/
theorem exists_at? (h : n.Relisted m) (hn : n.WellNamed) {names : List String}
    (hk : n.at? names = some k) : ∃ l, m.at? names = some l ∧ k.Relisted l := by
  induction h generalizing names k with
  | refl n => exact ⟨k, hk, .refl k⟩
  | @perm entries others h =>
    cases names with
    | nil =>
      cases hk
      exact ⟨_, rfl, .perm h⟩
    | cons name names =>
      cases hn with
      | directory _ hnodup _ =>
        obtain ⟨e, he, hk⟩ := (at?_directory_cons hnodup).1 hk
        exact ⟨k, (at?_directory_cons ((h.map Prod.fst).nodup_iff.1 hnodup)).2
          ⟨e, h.mem_iff.1 he, hk⟩, .refl k⟩
  | @inside before after name n m h ih =>
    cases names with
    | nil =>
      cases hk
      exact ⟨_, rfl, .inside before after name h⟩
    | cons other names =>
      have hm := (Relisted.inside before after name h).wellNamed hn
      cases hn with
      | directory _ hnodup hinside =>
        cases hm with
        | directory _ hnodup' _ =>
          obtain ⟨e, he, hk⟩ := (at?_directory_cons hnodup).1 hk
          rw [List.mem_append, List.mem_cons] at he
          rcases he with he | he | he
          · exact ⟨k, (at?_directory_cons hnodup').2
              ⟨e, List.mem_append_left _ he, hk⟩, .refl k⟩
          · cases he
            obtain ⟨l, hl, hkl⟩ := ih (hinside _ (List.mem_append_right before
              List.mem_cons_self)) hk
            exact ⟨l, (at?_directory_cons hnodup').2
              ⟨m, List.mem_append_right before List.mem_cons_self, hl⟩, hkl⟩
          · exact ⟨k, (at?_directory_cons hnodup').2
              ⟨e, List.mem_append_right before (List.mem_cons_of_mem _ he), hk⟩, .refl k⟩
  | trans h _ ih ih' =>
    obtain ⟨l, hl, hkl⟩ := ih hn hk
    obtain ⟨l', hl', hll'⟩ := ih' (h.wellNamed hn) hl
    exact ⟨l', hl', hkl.trans hll'⟩

/-- A file stays what it is, and a directory stays a directory. -/
theorem shape (h : n.Relisted m) :
    (∀ bytes written, n = file bytes written → m = file bytes written) ∧
      ∀ entries, n = directory entries → ∃ others, m = directory others := by
  induction h with
  | refl n => exact ⟨fun _ _ h => h, fun entries h => ⟨entries, h⟩⟩
  | @perm _ others _ => exact ⟨fun _ _ h => (by cases h), fun _ _ => ⟨others, rfl⟩⟩
  | inside => exact ⟨fun _ _ h => (by cases h), fun _ _ => ⟨_, rfl⟩⟩
  | trans _ _ ih ih' =>
    refine ⟨fun bytes written h => ih'.1 _ _ (ih.1 _ _ h), fun entries h => ?_⟩
    obtain ⟨between, hbetween⟩ := ih.2 entries h
    exact ih'.2 between hbetween

theorem holdsFile (h : n.Relisted m) (hn : n.WellNamed) {names : List String}
    (hfile : n.HoldsFile names) : m.HoldsFile names := by
  obtain ⟨⟨bytes, written, hat⟩, hpass⟩ := hfile
  obtain ⟨l, hl, hkl⟩ := h.exists_at? hn hat
  exact ⟨⟨bytes, written, hl.trans (congrArg some (hkl.shape.1 _ _ rfl))⟩, hpass⟩

theorem listable (h : n.Relisted m) (hn : n.WellNamed) {p : Path} (hlist : n.Listable p) :
    m.Listable p := by
  intro names entries hat hpass
  obtain ⟨l, hl, hkl⟩ := h.symm.exists_at? (h.wellNamed hn) hat
  obtain ⟨others, rfl⟩ := hkl.shape.2 _ rfl
  exact hlist names others hl hpass

end Node.Relisted

/-! ## The list of source files -/

/-- The source files at a path to this node: just the files that it holds with one of the endings,
every one of them once, in the order of paths. -/
structure SourceListing (n : Node) (root : Path) (exts : List String) (files : List Path) :
    Prop where
  /-- there are no others, and none is missing -/
  mem_iff : ∀ p, p ∈ files ↔ ∃ names, n.HoldsFile names ∧ p = root.inwards names ∧
    ∃ file, p.fileName? = some file ∧ ∃ ext ∈ exts, ext.toList <:+ file.toList
  /-- two files have two paths -/
  inj : ∀ names others, n.HoldsFile names → n.HoldsFile others →
    root.inwards names = root.inwards others → names = others
  /-- every path comes before the next -/
  pairwise : files.Pairwise Path.Before

namespace Path

theorem hasSuffix_iff {p : Path} {exts : List String} : p.hasSuffix exts = true ↔
    ∃ file, p.fileName? = some file ∧ ∃ ext ∈ exts, ext.toList <:+ file.toList := by
  rw [hasSuffix]
  cases p.fileName? with
  | none =>
    refine ⟨fun h => (by cases h), ?_⟩
    rintro ⟨file, ⟨⟩, -⟩
  | some file =>
    simp only [List.any_eq_true, List.isSuffixOf_iff_suffix, Option.some.injEq, exists_eq_left']

end Path

/-- Where everything can be listed, the files are as they should be. -/
theorem sourceListing_sourceFilesAt {n : Node} {root : Path} (hn : n.WellNamed)
    (hlist : n.Listable root) (exts : List String) :
    SourceListing n root exts (sourceFilesAt root exts (n.outline root)) where
  mem_iff p := by
    rw [sourceFilesAt, (List.mergeSort_perm _ _).mem_iff, List.mem_filter,
      Node.mem_filesAt_iff hn hlist, Path.hasSuffix_iff]
    constructor
    · rintro ⟨⟨names, hfile, hp⟩, hsuffix⟩
      exact ⟨names, hfile, hp, hsuffix⟩
    · rintro ⟨names, hfile, hp, hsuffix⟩
      exact ⟨⟨names, hfile, hp⟩, hsuffix⟩
  inj names others hnames hothers h :=
    Path.inwards_inj (hnames.properName hn) (hothers.properName hn) (congrArg Path.components h)
  pairwise := Path.pairwise_before_mergeSort ((Node.pairwise_filesAt hn hlist).filter _)

section Runs

variable {d : Disk} {root : Path} {o : Outline}

theorem run_sourceFiles_of_error {fault : IoFault} (h : d (.outline root) = .error fault)
    (exts : List String) : (sourceFiles root exts).run d = .error (.walkFailed root fault) := by
  rw [sourceFiles, Program.run_bind, run_query, h]
  rfl

theorem run_sourceFiles_of_cons (h : d (.outline root) = .ok o) {dir : Path} {fault : IoFault}
    {others : List (Path × IoFault)} (hclosed : closedAt root o = (dir, fault) :: others)
    (exts : List String) : (sourceFiles root exts).run d = .error (.walkFailed dir fault) := by
  rw [sourceFiles, Program.run_bind, run_query, h]
  dsimp only
  rw [hclosed]
  rfl

theorem run_sourceFiles_of_nil (h : d (.outline root) = .ok o) (hclosed : closedAt root o = [])
    (exts : List String) :
    (sourceFiles root exts).run d = .ok (sourceFilesAt root exts o) := by
  rw [sourceFiles, Program.run_bind, run_query, h]
  dsimp only
  rw [hclosed]
  rfl

end Runs

/-- There is a result just when everything can be listed, and which it is. -/
theorem run_sourceFiles_eq_ok_iff {t : Tree} {root : Path} {n : Node} (h : t.node root = .ok n)
    (hn : n.WellNamed) (exts : List String) (files : List Path) :
    (sourceFiles root exts).run t.disk = .ok files ↔
      n.Listable root ∧ files = sourceFilesAt root exts (n.outline root) := by
  have houtline : t.disk (.outline root) = .ok (n.outline root) := by
    rw [Tree.disk, h]
    rfl
  rw [← Node.closedAt_eq_nil_iff hn]
  rcases hc : closedAt root (n.outline root) with _ | ⟨c, others⟩
  · rw [run_sourceFiles_of_nil houtline hc, Except.ok.injEq, and_iff_right rfl, eq_comm]
  · rw [run_sourceFiles_of_cons houtline hc]
    exact iff_of_false (fun h => by cases h) fun h => List.cons_ne_nil _ _ h.1

/-- **The source files are exact.** Where a tree has something at the root, and the entries of its
directories have different names, there is a result just when all directories that are not passed
over can be listed. It has the files at the root and below it whose names end as they should, but
for those below directories that are passed over, each once and in the order of paths; and it is
the same in every order in which directories list their entries. Where there is nothing, there is
no result. -/
theorem sourceFiles_exact (t : Tree) (root : Path) (exts : List String) :
    (∀ fault, t.node root = .error fault →
      (sourceFiles root exts).run t.disk = .error (.walkFailed root fault)) ∧
    ∀ n, t.node root = .ok n → n.WellNamed →
      ((∃ files, (sourceFiles root exts).run t.disk = .ok files) ↔ n.Listable root) ∧
      ∀ files, (sourceFiles root exts).run t.disk = .ok files →
        SourceListing n root exts files ∧
        ∀ (other : Tree) (m : Node), other.node root = .ok m → n.Relisted m →
          (sourceFiles root exts).run other.disk = .ok files := by
  refine ⟨fun fault h => run_sourceFiles_of_error (by rw [Tree.disk, h]; rfl) exts,
    fun n hroot hn => ⟨⟨?_, fun hlist => ?_⟩, fun files h => ?_⟩⟩
  · rintro ⟨files, h⟩
    exact ((run_sourceFiles_eq_ok_iff hroot hn exts files).1 h).1
  · exact ⟨_, (run_sourceFiles_eq_ok_iff hroot hn exts _).2 ⟨hlist, rfl⟩⟩
  · obtain ⟨hlist, rfl⟩ := (run_sourceFiles_eq_ok_iff hroot hn exts files).1 h
    have hlisting := sourceListing_sourceFilesAt hn hlist exts
    refine ⟨hlisting, fun other m hm hre => ?_⟩
    have hnamed := hre.wellNamed hn
    have hlist' := hre.listable hn hlist
    have hother := sourceListing_sourceFilesAt hnamed hlist' exts
    refine (run_sourceFiles_eq_ok_iff hm hnamed exts _).2 ⟨hlist', ?_⟩
    -- both lists are in order and have the same paths
    refine Path.eq_of_pairwise_before hlisting.pairwise hother.pairwise fun p => ?_
    rw [hlisting.mem_iff, hother.mem_iff]
    refine exists_congr fun names => and_congr_left fun _ => ?_
    exact ⟨hre.holdsFile hn, hre.symm.holdsFile hnamed⟩

/-- A project with a package, a socket, and a file that has the name of a repository. -/
def projectEntries : List (String × Node) :=
  [("b.js", .file [] 0), ("node_modules", .directory [("x.js", .file [] 0)]),
    (".git", .file [] 0), ("s.js", .socket), ("a", .directory [("c.js", .file [] 0)])]

/-- The project in a tree that lists its entries in this order. -/
def projectTree (entries : List (String × Node)) : Tree :=
  ⟨.directory [("p", .directory entries)], [], 0⟩

/-- The file is found though a directory of its name would be passed over, what is in the package
and the socket are not, and the order of the entries does not matter. -/
theorem sourceFiles_exact_project :
    ∃ files,
      (sourceFiles ⟨"/p"⟩ [".js", ".git"]).run (projectTree projectEntries).disk = .ok files ∧
      ⟨"/p/.git"⟩ ∈ files ∧ ⟨"/p/node_modules/x.js"⟩ ∉ files ∧ ⟨"/p/s.js"⟩ ∉ files ∧
      (sourceFiles ⟨"/p"⟩ [".js", ".git"]).run (projectTree projectEntries.reverse).disk
        = .ok files := by
  have single (s : String) (hs : ProperName s) : (Node.directory [(s, .file [] 0)]).WellNamed :=
    .directory (List.forall_mem_singleton.2 hs) (List.nodup_singleton s)
      (List.forall_mem_singleton.2 (.file [] 0))
  have hnamed : (Node.directory projectEntries).WellNamed :=
    .directory (by decide) (by decide) (List.forall_mem_cons.2 ⟨.file [] 0,
      List.forall_mem_cons.2 ⟨single "x.js" (by decide), List.forall_mem_cons.2 ⟨.file [] 0,
        List.forall_mem_cons.2 ⟨.socket,
          List.forall_mem_singleton.2 (single "c.js" (by decide))⟩⟩⟩⟩)
  obtain ⟨hok, hexact⟩ :=
    (sourceFiles_exact (projectTree projectEntries) ⟨"/p"⟩ [".js", ".git"]).2 _ rfl hnamed
  obtain ⟨files, hrun⟩ := hok.2 ((Node.closedAt_eq_nil_iff hnamed _).1 (by decide +kernel))
  obtain ⟨hlisting, hother⟩ := hexact files hrun
  have hplace {names others : List String} (hnames : (Node.directory projectEntries).HoldsFile names)
      (ho : ∀ s ∈ others, ProperName s)
      (hp : Path.inwards ⟨"/p"⟩ others = Path.inwards ⟨"/p"⟩ names) : others = names :=
    Path.inwards_inj ho (hnames.properName hnamed) (congrArg Path.components hp)
  refine ⟨files, hrun, (hlisting.mem_iff _).2 ?_, fun hmem => ?_, fun hmem => ?_,
    hother _ (.directory projectEntries.reverse) rfl (.perm (List.reverse_perm _).symm)⟩
  · exact ⟨[".git"], ⟨⟨[], 0, rfl⟩, by decide⟩, by decide +kernel, ".git", by decide, ".git",
      by decide, by decide⟩
  · obtain ⟨names, hnames, hp, -⟩ := (hlisting.mem_iff _).1 hmem
    obtain rfl : ["node_modules", "x.js"] = names := hplace hnames (by decide)
      ((show _ = ⟨"/p/node_modules/x.js"⟩ by decide +kernel).trans hp)
    exact (hnames.2 "node_modules" (by decide)).1 rfl
  · obtain ⟨names, hnames, hp, -⟩ := (hlisting.mem_iff _).1 hmem
    obtain rfl : ["s.js"] = names := hplace hnames (by decide)
      ((show _ = ⟨"/p/s.js"⟩ by decide +kernel).trans hp)
    obtain ⟨⟨bytes, written, hfile⟩, -⟩ := hnames
    cases hfile

/-- There is not always a list: where there is nothing, there is none, and not an empty one. -/
theorem not_forall_exists_sourceFiles :
    ¬∀ (t : Tree) (root : Path) (exts : List String), t.root.WellNamed →
      ∃ files, (sourceFiles root exts).run t.disk = .ok files := by
  intro h
  obtain ⟨files, hfiles⟩ :=
    h (projectTree []) ⟨"/missing"⟩ [".js"] (.directory (by decide) (by decide)
      (List.forall_mem_singleton.2 (.directory (fun e he => absurd he List.not_mem_nil)
        List.nodup_nil fun e he => absurd he List.not_mem_nil)))
  have hmissing : (projectTree []).disk (.outline ⟨"/missing"⟩) = .error .notFound := by
    rfl
  rw [run_sourceFiles_of_error hmissing] at hfiles
  cases hfiles

end ModuleLookup
