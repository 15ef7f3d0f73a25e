import ModuleLookup.Proofs.Lookup.Candidates
import ModuleLookup.Proofs.Path.Normal

/-!
# The names that a lookup makes

A lookup writes endings behind paths, and names behind directories. Endings are checked, so what
comes out is again a name, and in the same place: nothing that is made from a relative path is
absolute, and the other way round.

* `ProperName.append_extension` — a name with an ending is a name.
* `isAbsolute_of_mem_names` — the names that are tried for a path are absolute just when it is.
-/

namespace ModuleLookup

/-! ## Checked settings -/

theorem two_le_length_of_validExtension {e : String} (h : ValidExtension e) :
    2 ≤ e.toList.length := by
  obtain ⟨⟨hlength, hhead⟩, -⟩ := h
  obtain ⟨cs, hcs⟩ := List.head?_eq_some_iff.1 hhead
  cases cs with
  | nil =>
    rw [hcs] at hlength
    exact absurd hlength (by decide)
  | cons c cs =>
    rw [hcs, List.length_cons, List.length_cons]
    omega

/-- The endings for the project's own directories were checked wherever they come from. -/
theorem Context.validExtensions_aliasExtensions (ctx : Context) :
    ValidExtensions ctx.aliasExtensions := by
  rw [aliasExtensions]
  cases he : ctx.ownAliasExtensions with
  | none => exact ctx.extensions_valid
  | some exts => exact ctx.aliasExtensions_valid exts he

/-! ## Names with endings -/

/-- An ending makes another name of a name. -/
theorem ProperName.append_extension {s e : String} (h : ProperName s) (he : ValidExtension e) :
    ProperName (s ++ e) :=
  h.append (two_le_length_of_validExtension he) he.2.1

theorem properName_index {e : String} (he : ValidExtension e) : ProperName ("index" ++ e) :=
  ProperName.append_extension (by decide) he

section Names

variable {p q : Path} {s e : String} {exts : List String}

theorem isAbsolute_join_name (hs : ProperName s) : (p.join ⟨s⟩).isAbsolute = p.isAbsolute := by
  rw [Path.isAbsolute_join, Path.isAbsolute_of_properName hs, Bool.false_or]

theorem head?_ne_slash_of_validExtension (he : ValidExtension e) :
    e.toList.head? ≠ some '/' := by
  rw [he.1.2]
  decide

/-- The names that are tried for a path are absolute just when the path is. -/
theorem isAbsolute_of_mem_names (hexts : ∀ e ∈ exts, ValidExtension e)
    (h : q ∈ p.join ⟨"package.json"⟩ :: (fileNames p exts ++ indexNames p exts)) :
    q.isAbsolute = p.isAbsolute := by
  rcases List.mem_cons.1 h with rfl | h
  · exact isAbsolute_join_name (by decide)
  · rcases List.mem_append.1 h with h | h
    · rcases List.mem_cons.1 h with rfl | h
      · rfl
      · obtain ⟨e, he, rfl⟩ := List.mem_map.1 h
        exact Path.isAbsolute_withSuffix (head?_ne_slash_of_validExtension (hexts e he)) p
    · obtain ⟨e, he, rfl⟩ := List.mem_map.1 h
      exact isAbsolute_join_name (properName_index (hexts e he))

end Names

end ModuleLookup
