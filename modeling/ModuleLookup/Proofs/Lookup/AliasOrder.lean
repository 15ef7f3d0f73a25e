import ModuleLookup.Proofs.Lookup.Candidates

/-!
# The order in the project's own directories

What is looked for in the project's own directories is meant to be found by three loops inside
each other: over the directories, over the endings, and over the names that an ending makes of a
path, of which the path itself is the first. The search asks for the path itself only once in a
directory, before it goes through the endings. As long as there are endings, that is no difference
to what is found.

* `firstUnderAliases` — the three loops. Directories come first (`firstUnderAliases_append`), and
  endings come before the kind of name (`findSome?_namesWith_of_index`).
* `find?_rootNames` — asking for the path itself only once makes no difference.
* `Tries.run_eq_ofFile?` — an attempt that tries paths ends at the first that is a file.
* `underAliases_eq_firstUnderAliases` — the search finds what the loops find.
-/

namespace ModuleLookup

/-- Where a specifier leads that is written behind one of the project's own directories. -/
def aliasPlace (projectRoot : Path) (spec root : String) : Path :=
  ((projectRoot.join ⟨root⟩).join ⟨spec⟩).normalize

/-- What is tried for one ending: the path itself, the path with the ending, and the index file
with it. -/
def namesWith (base : Path) (ext : String) : List Path :=
  [base, base.withSuffix ext, base.join ⟨"index" ++ ext⟩]

/-- The first file that a loop over directories, a loop over endings in it, and a loop over names
in that come upon. -/
def firstUnderAliases (isFile : Path → Bool) (spec : String) (projectRoot : Path)
    (roots exts : List String) : Option Path :=
  roots.findSome? fun root =>
    exts.findSome? fun ext =>
      (namesWith (aliasPlace projectRoot spec root) ext).find? isFile

/-- How an attempt ends that looks for a file. -/
def Outcome.ofFile? : Option Path → Outcome
  | none => missed
  | some p => hit p

/-! ## The loops -/

section Loops

variable {isFile : Path → Bool} {spec : String} {projectRoot base : Path} {exts : List String}

/-- Directories come first: later ones count only when nothing is found in earlier ones. -/
theorem firstUnderAliases_append (front back : List String) :
    firstUnderAliases isFile spec projectRoot (front ++ back) exts
      = (firstUnderAliases isFile spec projectRoot front exts).or
          (firstUnderAliases isFile spec projectRoot back exts) :=
  List.findSome?_append

/-- For a path that is a file the endings do not matter, if there are any. -/
theorem findSome?_namesWith_of_isFile (h : isFile base = true) (hne : exts ≠ []) :
    (exts.findSome? fun ext => (namesWith base ext).find? isFile) = some base := by
  obtain ⟨ext, more, rfl⟩ := List.exists_cons_of_ne_nil hne
  have hfirst : (namesWith base ext).find? isFile = some base :=
    List.find?_cons_of_pos h
  rw [List.findSome?_cons, hfirst]

/-- For any other path the path itself may be left out. -/
theorem find?_namesWith_of_not_isFile (h : ¬isFile base = true) (ext : String) :
    (namesWith base ext).find? isFile
      = [base.withSuffix ext, base.join ⟨"index" ++ ext⟩].find? isFile :=
  List.find?_cons_of_neg h

/-- **The path itself need be tried only once**, before the endings. -/
theorem find?_rootNames (hne : exts ≠ []) :
    (rootNames base exts).find? isFile
      = exts.findSome? fun ext => (namesWith base ext).find? isFile := by
  by_cases h : isFile base = true
  · rw [findSome?_namesWith_of_isFile h hne, rootNames, List.find?_cons_of_pos h]
  · rw [rootNames, List.find?_cons_of_neg h, List.find?_flatMap]
    simp only [find?_namesWith_of_not_isFile h]

/-- Endings come before the kind of name: the index file with an earlier ending is found before
the path with a later one. -/
theorem findSome?_namesWith_of_index {front back : List String} {ext : String}
    (hbase : ¬isFile base = true)
    (hfront : ∀ e ∈ front, ¬isFile (base.withSuffix e) = true ∧
      ¬isFile (base.join ⟨"index" ++ e⟩) = true)
    (hindex : isFile (base.join ⟨"index" ++ ext⟩) = true) :
    ((front ++ ext :: back).findSome? fun e => (namesWith base e).find? isFile)
      = some (if isFile (base.withSuffix ext) = true then base.withSuffix ext
          else base.join ⟨"index" ++ ext⟩) := by
  have hmiss : (front.findSome? fun e => (namesWith base e).find? isFile) = none := by
    rw [List.findSome?_eq_none_iff]
    intro e he
    obtain ⟨hsuffix, hindex⟩ := hfront e he
    rw [find?_namesWith_of_not_isFile hbase, List.find?_cons_of_neg hsuffix,
      List.find?_cons_of_neg hindex, List.find?_nil]
  rw [List.findSome?_append, hmiss, Option.none_or, List.findSome?_cons,
    find?_namesWith_of_not_isFile hbase]
  by_cases hsuffix : isFile (base.withSuffix ext) = true
  · rw [List.find?_cons_of_pos hsuffix, if_pos hsuffix]
  · rw [List.find?_cons_of_neg hsuffix, List.find?_cons_of_pos hindex, if_neg hsuffix]

/-- Whatever the loops come upon is a file. -/
theorem isFile_of_firstUnderAliases {roots : List String} {p : Path}
    (h : firstUnderAliases isFile spec projectRoot roots exts = some p) : isFile p = true := by
  obtain ⟨root, -, hroot⟩ := List.exists_of_findSome?_eq_some h
  obtain ⟨ext, -, hext⟩ := List.exists_of_findSome?_eq_some hroot
  exact List.find?_some hext

end Loops

/-! ## The search -/

namespace Attempt

variable {d : Disk} {s : Strategy}

/-- The first candidate that says anything, among paths, is the first file. -/
theorem findSome?_verdict?_paths (ps : List Path) :
    (ps.map (.path s)).findSome? (Candidate.verdict? d)
      = (ps.find? fun p => d (.isFile p)).map fun p => .ok (s.resolved p) := by
  induction ps with
  | nil => rfl
  | cons p ps ih =>
    rw [List.map_cons, List.findSome?_cons, Candidate.verdict?]
    by_cases h : d (.isFile p) = true
    · rw [if_pos h, List.find?_cons_of_pos (p := fun p => d (.isFile p)) h, Option.map_some]
    · rw [if_neg h, List.find?_cons_of_neg (p := fun p => d (.isFile p)) h, ← ih]

/-- An attempt that tries paths ends at the first that is a file. -/
theorem Tries.run_eq_ofFile? {a : Attempt} {ps : List Path}
    (h : Tries d s a (ps.map (.path s))) :
    a.run d = .ofFile? (ps.find? fun p => d (.isFile p)) := by
  rw [Tries, findSome?_verdict?_paths] at h
  cases hrun : a.run d with
  | missed =>
    rw [hrun] at h
    rw [Option.map_eq_none_iff.1 h.symm]
    rfl
  | hit p =>
    rw [hrun] at h
    obtain ⟨q, hq, heq⟩ := Option.map_eq_some_iff.1 h.symm
    have hpq : q = p := by cases s <;> cases heq <;> rfl
    rw [hq, hpq]
    rfl
  | broken fault =>
    rw [hrun] at h
    obtain ⟨q, -, heq⟩ := Option.map_eq_some_iff.1 h.symm
    cases heq

end Attempt

open Attempt

section Search

variable {d : Disk}

/-- The search goes through the names in each directory. -/
theorem run_underAliases (spec : String) (projectRoot : Path) (roots : List String)
    {exts : List String} (hne : exts ≠ []) :
    (underAliases spec projectRoot roots exts).run d
      = .ofFile? (firstUnderAliases (fun p => d (.isFile p)) spec projectRoot roots exts) := by
  have htries := tries_underRoots (d := d) spec projectRoot roots exts
  rw [← List.map_flatMap] at htries
  rw [htries.run_eq_ofFile?, List.find?_flatMap, firstUnderAliases]
  simp only [find?_rootNames hne]
  rfl

end Search

/-- **The search is three loops inside each other.** With at least one ending, the search in the
project's own directories ends as the loop over directories, over endings and over the names that
an ending makes. So a file in an earlier directory is found before any in a later one; in a
directory where the path itself is no file, an index file with an earlier ending is found before a
file with a later one; and whatever is found is a file. -/
theorem underAliases_eq_firstUnderAliases (d : Disk) (spec : String) (projectRoot : Path)
    (roots exts : List String) (hne : exts ≠ []) :
    (underAliases spec projectRoot roots exts).run d
        = .ofFile? (firstUnderAliases (fun p => d (.isFile p)) spec projectRoot roots exts) ∧
      (∀ front back, roots = front ++ back →
        (underAliases spec projectRoot roots exts).run d
          = match (underAliases spec projectRoot front exts).run d with
            | .missed => (underAliases spec projectRoot back exts).run d
            | decided => decided) ∧
      (∀ root more front ext back, roots = root :: more → exts = front ++ ext :: back →
        let base := aliasPlace projectRoot spec root
        ¬d (.isFile base) = true →
        (∀ e ∈ front, ¬d (.isFile (base.withSuffix e)) = true ∧
          ¬d (.isFile (base.join ⟨"index" ++ e⟩)) = true) →
        d (.isFile (base.join ⟨"index" ++ ext⟩)) = true →
        (underAliases spec projectRoot roots exts).run d
          = .hit (if d (.isFile (base.withSuffix ext)) = true then base.withSuffix ext
              else base.join ⟨"index" ++ ext⟩)) ∧
      ∀ p, (underAliases spec projectRoot roots exts).run d = .hit p → d (.isFile p) = true := by
  have hrun (rs : List String) : (underAliases spec projectRoot rs exts).run d
      = .ofFile? (firstUnderAliases (fun p => d (.isFile p)) spec projectRoot rs exts) :=
    run_underAliases spec projectRoot rs hne
  refine ⟨hrun roots, ?_, ?_, ?_⟩
  · intro front back hroots
    rw [hrun, hrun, hrun, hroots, firstUnderAliases_append]
    cases firstUnderAliases (fun p => d (.isFile p)) spec projectRoot front exts with
    | none => rfl
    | some p => rfl
  · intro root more front ext back hroots hexts base hbase hfront hindex
    have hloop := @findSome?_namesWith_of_index (fun p => d (.isFile p)) base front back ext
      hbase hfront hindex
    rw [hrun, hroots, hexts, firstUnderAliases, List.findSome?_cons, hloop]
    rfl
  · intro p hp
    rw [hrun] at hp
    cases hloop : firstUnderAliases (fun p => d (.isFile p)) spec projectRoot roots exts with
    | none =>
      rw [hloop] at hp
      cases hp
    | some q =>
      rw [hloop] at hp
      cases hp
      exact isFile_of_firstUnderAliases hloop

/-- Files in two directories: in the first of them there is an index file with the first ending
and a file with the second. -/
def buttonMemory : Memory :=
  ((Memory.empty.write ⟨"/p/src/button/index.jsx"⟩ ⟨"", none, none, true⟩).write
    ⟨"/p/src/button.js"⟩ ⟨"", none, none, true⟩).write
    ⟨"/p/lib/button"⟩ ⟨"", none, none, true⟩

/-- The index file is found, and not what the second directory holds. -/
theorem underAliases_eq_firstUnderAliases_button :
    [".jsx", ".js"] ≠ [] ∧
      (underAliases "button" ⟨"/p"⟩ ["src", "lib"] [".jsx", ".js"]).run buttonMemory.disk
        = .hit ⟨"/p/src/button/index.jsx"⟩ ∧
      buttonMemory.disk (.isFile ⟨"/p/src/button/index.jsx"⟩) = true := by
  have hne : [".jsx", ".js"] ≠ [] := List.cons_ne_nil _ _
  obtain ⟨-, -, hindex, hfile⟩ :=
    underAliases_eq_firstUnderAliases buttonMemory.disk "button" ⟨"/p"⟩ ["src", "lib"] _ hne
  have hrun := hindex "src" ["lib"] [] ".jsx" [".js"] rfl rfl (by decide +kernel)
    (fun e he => absurd he List.not_mem_nil) (by decide +kernel)
  have hplace : (aliasPlace ⟨"/p"⟩ "button" "src").join ⟨"index" ++ ".jsx"⟩
      = ⟨"/p/src/button/index.jsx"⟩ := by decide +kernel
  rw [if_neg (by decide +kernel), hplace] at hrun
  exact ⟨hne, hrun, hfile _ hrun⟩

end ModuleLookup
