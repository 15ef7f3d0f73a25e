import ModuleLookup.Proofs.Lookup.Candidates

/-!
# What a lookup depends on

A lookup asks whether there are files, and reads the manifests among them; the next question
depends on all the answers before. What it reads counts only by what it means as a manifest, so
two disks may differ in nearly everything, and as long as a lookup cannot see the difference at
its own questions it goes the same way on both of them to the same end.

* `Disk.Alike` — two disks say the same to a question of a lookup.
* `Program.Sparing` — a program asks only such questions, and goes the same way on any disk
  that says the same to them. `Sparing.bind` takes this through a sequence; every stage has it.
* `find_eq_of_alike` — so a lookup depends on the paths that it asks for and on the entries of
  the manifests that it reads, and on nothing else.
-/

namespace ModuleLookup

/-- The questions of a lookup on a disk: whether there is a file, and what a manifest says that
is one. -/
inductive Disk.Concerns (d : Disk) : Query → Prop
  /-- any path may be asked for -/
  | isFile (p : Path) : d.Concerns (.isFile p)
  /-- only manifests are read, and only when there are any -/
  | readText (dir : Path) (h : d (.isFile (Manifest.ofDirectory dir)) = true) :
      d.Concerns (.readText (Manifest.ofDirectory dir))

/-- Two disks say the same to a question, as far as a lookup looks at the answer: of a text only
counts what it means as a manifest. -/
def Disk.Alike (d e : Disk) : Query → Prop
  | .readText p => mainAt d p = mainAt e p
  | q => d q = e q

/-- Of a manifest only the field `main` counts. -/
theorem mainOf_eq_of_field? {text text' : String} {fields fields' : List (String × Json.Value)}
    (h : Json.readValue text = .ok (.object fields))
    (h' : Json.readValue text' = .ok (.object fields'))
    (hmain : (Json.Value.object fields).field? "main"
      = (Json.Value.object fields').field? "main") :
    mainOf text = mainOf text' := by
  rw [mainOf, mainOf, h, h']
  dsimp only
  rw [hmain]

namespace Program

variable {α β : Type} {d : Disk}

/-- A program asks only questions of a lookup, and every disk that says the same to those it
asks leads it the same way. -/
structure Sparing (d : Disk) (p : Program α) : Prop where
  /-- what it asks is the concern of a lookup -/
  concerns : ∀ q ∈ p.asked d, d.Concerns q
  /-- the value and the questions are the same -/
  agree : ∀ e : Disk, (∀ q ∈ p.asked d, d.Alike e q) →
    p.run e = p.run d ∧ p.asked e = p.asked d

theorem sparing_done (a : α) : (done a).Sparing d where
  concerns _ h := absurd h List.not_mem_nil
  agree _ _ := ⟨rfl, rfl⟩

theorem sparing_step (kind : StepKind) (ok : Bool) (detail : String) (path : Option Path) :
    (step kind ok detail path).Sparing d where
  concerns _ h := absurd h List.not_mem_nil
  agree _ _ := ⟨rfl, rfl⟩

theorem sparing_warn (kind : WarningKind) (message : String) :
    (warn kind message).Sparing d where
  concerns _ h := absurd h List.not_mem_nil
  agree _ _ := ⟨rfl, rfl⟩

theorem sparing_isFile (p : Path) : (query (.isFile p)).Sparing d where
  concerns q h := by
    obtain rfl := List.mem_singleton.1 h
    exact .isFile p
  agree e h := ⟨(h _ List.mem_cons_self).symm, rfl⟩

/-- The first program leads to one and the same second, which then has to be sparing on the one
disk only. -/
theorem Sparing.bind {p : Program α} {f : α → Program β} (hp : p.Sparing d)
    (hf : (f (p.run d)).Sparing d) : (p >>= f).Sparing d where
  concerns q h := by
    rw [asked_bind] at h
    rcases List.mem_append.1 h with h | h
    · exact hp.concerns q h
    · exact hf.concerns q h
  agree e h := by
    rw [asked_bind] at h
    obtain ⟨hrun, hasked⟩ := hp.agree e fun q hq => h q (List.mem_append_left _ hq)
    obtain ⟨hrun', hasked'⟩ := hf.agree e fun q hq => h q (List.mem_append_right _ hq)
    rw [run_bind, run_bind, asked_bind, asked_bind, hrun, hasked]
    exact ⟨hrun', by rw [hasked']⟩

end Program

/-! ## The stages of a lookup -/

open Attempt Program

section Stages

variable {d : Disk}

theorem asked_readEntry (manifest : Path) :
    (Manifest.readEntry manifest).asked d = [.readText manifest] := by
  rw [Manifest.readEntry, asked_bind]
  rcases Manifest.entryAt manifest ((query (.readText manifest)).run d) with fault | e
  · rfl
  · cases e <;> rfl

/-- A manifest that is there may be read: what comes of it is its meaning and no more. -/
theorem sparing_readEntry {dir : Path} (h : d (.isFile (Manifest.ofDirectory dir)) = true) :
    (Manifest.readEntry (Manifest.ofDirectory dir)).Sparing d where
  concerns q hq := by
    rw [asked_readEntry] at hq
    obtain rfl := List.mem_singleton.1 hq
    exact .readText dir h
  agree e he := by
    rw [run_readEntry, run_readEntry, asked_readEntry, asked_readEntry]
    rw [asked_readEntry] at he
    exact ⟨(he _ List.mem_cons_self).symm, rfl⟩

theorem sparing_probe (kind : StepKind) (detail : String) (p : Path) :
    (probe kind detail p).Sparing d := by
  refine (sparing_isFile p).bind ?_
  split
  · exact (sparing_step kind true detail (some p)).bind (sparing_done _)
  · exact sparing_done _

theorem sparing_giveUp (kind : StepKind) (detail : String) (path : Option Path) :
    (giveUp kind detail path).Sparing d :=
  (sparing_step kind false detail path).bind (sparing_done _)

theorem Program.Sparing.orElse {a b : Attempt} (ha : a.Sparing d) (hb : b.Sparing d) :
    (a.orElse b).Sparing d := by
  refine ha.bind ?_
  split
  · exact hb
  · exact sparing_done _

theorem sparing_firstOf {α : Type} {f : α → Attempt} (h : ∀ x, (f x).Sparing d) (xs : List α) :
    (firstOf (xs.map f)).Sparing d := by
  induction xs with
  | nil => exact sparing_done _
  | cons x xs ih => exact (h x).orElse ih

theorem sparing_asFile (p : Path) (exts : List String) : (asFile p exts).Sparing d :=
  ((sparing_probe ..).orElse (sparing_firstOf (fun _ => sparing_probe ..) exts)).orElse
    (sparing_giveUp ..)

theorem sparing_asIndex (dir : Path) (exts : List String) : (asIndex dir exts).Sparing d :=
  (sparing_firstOf (fun _ => sparing_probe ..) exts).orElse (sparing_giveUp ..)

theorem sparing_asDirectory (dir : Path) (exts : List String) :
    (asDirectory dir exts).Sparing d := by
  refine (sparing_isFile _).bind ?_
  split
  · next h =>
    -- the manifest is a file, so it may be read; its entry leads on
    refine (sparing_readEntry h).bind ?_
    split
    · exact sparing_done _
    · exact ((sparing_asFile ..).orElse (sparing_asIndex ..)).orElse (sparing_giveUp ..)
  · exact sparing_asIndex dir exts

theorem sparing_asEither (p : Path) (exts : List String) : (asEither p exts).Sparing d :=
  (sparing_asFile p exts).orElse (sparing_asDirectory p exts)

theorem sparing_inPackages (spec : String) (start : Path) (exts : List String) :
    (inPackages spec start exts).Sparing d := by
  have hdirs : (firstOf ((searchPath start).map (inDirectory spec exts))).Sparing d :=
    sparing_firstOf (fun _ => (sparing_asEither ..).orElse (sparing_giveUp ..)) _
  refine (sparing_step ..).bind ?_
  split
  · exact (sparing_warn ..).bind hdirs
  · exact hdirs

theorem sparing_underAliases (spec : String) (projectRoot : Path) (roots exts : List String) :
    (underAliases spec projectRoot roots exts).Sparing d := by
  have hroot (root : String) : (underRoot spec projectRoot exts root).Sparing d :=
    (sparing_probe ..).orElse
      (sparing_firstOf (fun _ => (sparing_probe ..).orElse (sparing_probe ..)) exts)
  exact (sparing_firstOf hroot roots).orElse (sparing_giveUp ..)

theorem sparing_conclude {a : Attempt} (found : Path → Resolved) (h : a.Sparing d) :
    (conclude found a).Sparing d := by
  refine h.bind ?_
  split
  · exact sparing_done _
  · exact sparing_done _
  · exact (sparing_step ..).bind (sparing_done _)

theorem sparing_resolve (ctx : Context) (spec : String) (start : Path) :
    (resolve ctx spec start).Sparing d := by
  rw [resolve]
  split
  · exact (sparing_step ..).bind (sparing_done _)
  · refine (sparing_step ..).bind ?_
    split
    · exact (sparing_step ..).bind (sparing_done _)
    · exact sparing_conclude _ (sparing_asEither ..)
    · exact sparing_conclude _ (sparing_inPackages ..)

theorem sparing_find (ctx : Context) (spec : String) (start : Path) :
    (find ctx spec start).Sparing d := by
  refine (sparing_resolve ctx spec start).bind ?_
  split
  · split
    · exact sparing_conclude _ (sparing_underAliases ..)
    · exact sparing_done _
  · exact sparing_done _

end Stages

/-! ## Two disks -/

/-- **What a lookup depends on**: the paths that it asks for, and the entries of the manifests
that it reads. A disk that has files at the same ones of these paths, and manifests that mean
the same or are broken in the same way, leads it to the same result through the same questions.
Only manifests that are files are read, and of their fields only `main` counts. -/
theorem find_eq_of_alike (d e : Disk) (ctx : Context) (spec : String) (start : Path)
    (hfile : ∀ p, .isFile p ∈ (find ctx spec start).asked d → d (.isFile p) = e (.isFile p))
    (hmain : ∀ p, .readText p ∈ (find ctx spec start).asked d → mainAt d p = mainAt e p) :
    (find ctx spec start).run e = (find ctx spec start).run d ∧
      (find ctx spec start).asked e = (find ctx spec start).asked d ∧
      (∀ q ∈ (find ctx spec start).asked d, (∃ p, q = .isFile p) ∨
        ∃ dir, q = .readText (Manifest.ofDirectory dir) ∧
          d (.isFile (Manifest.ofDirectory dir)) = true) ∧
      ∀ text text' fields fields', Json.readValue text = .ok (.object fields) →
        Json.readValue text' = .ok (.object fields') →
        (Json.Value.object fields).field? "main" = (Json.Value.object fields').field? "main" →
        mainOf text = mainOf text' := by
  have hfind := sparing_find (d := d) ctx spec start
  have halike : ∀ q ∈ (find ctx spec start).asked d, d.Alike e q := by
    intro q hq
    cases hfind.concerns q hq with
    | isFile p => exact hfile p hq
    | readText dir h => exact hmain (Manifest.ofDirectory dir) hq
  obtain ⟨hrun, hasked⟩ := hfind.agree e halike
  refine ⟨hrun, hasked, fun q hq => ?_, fun _ _ _ _ => mainOf_eq_of_field?⟩
  cases hfind.concerns q hq with
  | isFile p => exact .inl ⟨p, rfl⟩
  | readText dir h => exact .inr ⟨dir, rfl, h⟩

/-- The memory of a package `a` that has a manifest and a file `m.js`. -/
def packageMemory (manifest text : String) : Memory :=
  (Memory.empty.write ⟨"/p/node_modules/a/package.json"⟩ ⟨manifest, none, none, true⟩).write
    ⟨"/p/node_modules/a/m.js"⟩ ⟨text, none, none, true⟩

/-- A manifest without fields. -/
theorem readValue_no_fields : Json.readValue "\x7b\x7d" = .ok (.object []) := by
  have hahead : ∀ h, Json.ahead "\x7b\x7d".toList = some ⟨'{', ['}'], h⟩ := fun _ => rfl
  rw [Json.readValue, Json.document, hahead (by decide)]
  dsimp only
  rw [Json.value]
  rfl

/-- A manifest with a field that is not `main`. -/
theorem readValue_other_field :
    Json.readValue "\x7b\"b\":null\x7d" = .ok (.object [("b", .null)]) := by
  have hahead : ∀ h, Json.ahead "\x7b\"b\":null\x7d".toList
      = some ⟨'{', ['"', 'b', '"', ':', 'n', 'u', 'l', 'l', '}'], h⟩ := fun _ => rfl
  have hname : Json.string ['b', '"', ':', 'n', 'u', 'l', 'l', '}']
      = .ok ⟨['b'], [':', 'n', 'u', 'l', 'l', '}'], by decide⟩ := by
    rw [Json.string, Json.stringWith, Json.stringWith]
    rfl
  have hnull : Json.value 127 'n' ['u', 'l', 'l', '}'] = .ok ⟨.null, ['}'], by decide⟩ := by
    rw [Json.value]
    rfl
  have hfields : Json.fields 127 [] ['b', '"', ':', 'n', 'u', 'l', 'l', '}']
      = .ok ⟨[("b", .null)], [], by decide⟩ := by
    rw [Json.fields, hname]
    change (Json.value 127 'n' ['u', 'l', 'l', '}'] >>= fun v => _) = _
    rw [hnull]
    rfl
  rw [Json.readValue, Json.document, hahead (by decide)]
  dsimp only
  rw [Json.value]
  change Except.mapError _ ((Json.fields 127 [] ['b', '"', ':', 'n', 'u', 'l', 'l', '}']
    >>= fun r => _) >>= fun r => _) = _
  rw [hfields]
  rfl

/-- Below a manifest that is broken in the same way, another text and another file do not
matter, and neither does a field beside `main`. -/
theorem find_eq_of_alike_package :
    (find (Context.withDefaults ⟨"/p"⟩) "a" ⟨"/p"⟩).run
        ((packageMemory "" "y").write ⟨"/p/b.js"⟩ ⟨"", none, none, true⟩).disk
      = (find (Context.withDefaults ⟨"/p"⟩) "a" ⟨"/p"⟩).run (packageMemory "" "x").disk ∧
    mainOf "\x7b\x7d" = mainOf "\x7b\"b\":null\x7d" := by
  have hasked : (find (Context.withDefaults ⟨"/p"⟩) "a" ⟨"/p"⟩).asked
      (packageMemory "" "x").disk
      = ["a", "a.js", "a.json", "a.node", "a/package.json"].map
          (fun s => .isFile ⟨"/p/node_modules/" ++ s⟩)
        ++ [.readText ⟨"/p/node_modules/a/package.json"⟩] := by
    decide +kernel
  have hfind := find_eq_of_alike (packageMemory "" "x").disk
    ((packageMemory "" "y").write ⟨"/p/b.js"⟩ ⟨"", none, none, true⟩).disk
    (Context.withDefaults ⟨"/p"⟩) "a" ⟨"/p"⟩ (fun p hp => ?_) fun p hp => ?_
  · exact ⟨hfind.1, hfind.2.2.2 _ _ _ _ readValue_no_fields readValue_other_field rfl⟩
  · rw [hasked] at hp
    simp only [List.map_cons, List.map_nil, List.cons_append, List.nil_append, List.mem_cons,
      List.not_mem_nil, Query.isFile.injEq, reduceCtorEq, or_false] at hp
    rcases hp with rfl | rfl | rfl | rfl | rfl <;> decide +kernel
  · rw [hasked] at hp
    simp only [List.map_cons, List.map_nil, List.cons_append, List.nil_append, List.mem_cons,
      List.not_mem_nil, Query.readText.injEq, reduceCtorEq, or_false, false_or] at hp
    have hx : (packageMemory "" "x").disk (.readText p) = .ok "" := by
      rw [hp]
      exact eq_ok_of_toOption_eq (by decide +kernel)
    have hy : ((packageMemory "" "y").write ⟨"/p/b.js"⟩ ⟨"", none, none, true⟩).disk
        (.readText p) = .ok "" := by
      rw [hp]
      exact eq_ok_of_toOption_eq (by decide +kernel)
    rw [mainAt, mainAt, hx, hy]

end ModuleLookup
