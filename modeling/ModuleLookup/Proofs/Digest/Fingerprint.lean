import ModuleLookup.Context
import ModuleLookup.Proofs.Digest.Framing

/-!
# Fingerprints

The fingerprint of a context is the digest of its parts, a flat list in which tags stand
before the lists of endings and directories. A directory may be spelled like a tag or
like an ending, and still the list can be read back: endings start with a dot, and no
tag does, so the endings in front end at the first tag and the endings at the back
start behind the last one.

* `Context.parts_injective` — the parts determine the context.
* `Context.eq_of_fingerprint_eq` — so does the fingerprint, if the hash tells the framed
  parts apart.
* `Context.framedParts_eq_iff` — the bytes to be hashed are the same for the same values and for
  no others.
-/

namespace ModuleLookup

/-! ## Lists cut at a mark -/

section Marks

variable {α : Type} {P : α → Prop}

/-- Where a mark is the first element without a property, a list can be cut there. -/
theorem append_cons_injective {a : α} {xs ys us vs : List α} (ha : ¬P a)
    (hx : ∀ x ∈ xs, P x) (hy : ∀ y ∈ ys, P y) (h : xs ++ a :: us = ys ++ a :: vs) :
    xs = ys ∧ us = vs := by
  induction xs generalizing ys with
  | nil =>
    cases ys with
    | nil => exact ⟨rfl, (List.cons.inj h).2⟩
    | cons y ys =>
      obtain ⟨rfl, -⟩ := List.cons.inj h
      exact absurd (hy _ List.mem_cons_self) ha
  | cons x xs ih =>
    cases ys with
    | nil =>
      obtain ⟨rfl, -⟩ := List.cons.inj h
      exact absurd (hx _ List.mem_cons_self) ha
    | cons y ys =>
      obtain ⟨rfl, hrest⟩ := List.cons.inj h
      obtain ⟨rfl, hus⟩ := ih (fun x hx' => hx x (List.mem_cons_of_mem _ hx'))
        (fun y hy' => hy y (List.mem_cons_of_mem _ hy')) hrest
      exact ⟨rfl, hus⟩

/-- Where a mark is the last element without a property, a list can be cut there. -/
theorem append_cons_injective_right {a : α} {xs ys us vs : List α} (ha : ¬P a)
    (hu : ∀ u ∈ us, P u) (hv : ∀ v ∈ vs, P v) (h : xs ++ a :: us = ys ++ a :: vs) :
    xs = ys ∧ us = vs := by
  have hrev := congrArg List.reverse h
  rw [List.reverse_append, List.reverse_append, List.reverse_cons, List.reverse_cons,
    List.append_assoc, List.append_assoc, List.singleton_append, List.singleton_append] at hrev
  obtain ⟨hus, hxs⟩ := append_cons_injective ha (fun u hm => hu u (List.mem_reverse.1 hm))
    (fun v hm => hv v (List.mem_reverse.1 hm)) hrev
  exact ⟨List.reverse_inj.1 hxs, List.reverse_inj.1 hus⟩

end Marks

/-! ## Parts of a context -/

/-- What tells an ending from a tag. -/
def StartsWithDot (s : String) : Prop :=
  s.toList.head? = some '.'

instance (s : String) : Decidable (StartsWithDot s) :=
  inferInstanceAs (Decidable (_ = _))

theorem ValidExtensions.startsWithDot {exts : List String} (h : ValidExtensions exts) :
    ∀ ext ∈ exts, StartsWithDot ext :=
  fun ext hext => (h.2 ext hext).1.2

namespace Context

theorem startsWithDot_aliasExtensions (ctx : Context) :
    ∀ ext ∈ ctx.ownAliasExtensions.getD [], StartsWithDot ext := by
  intro ext hext
  rcases ho : ctx.ownAliasExtensions with _ | exts
  · rw [ho] at hext
    exact absurd hext List.not_mem_nil
  · rw [ho] at hext
    exact (ctx.aliasExtensions_valid exts ho).startsWithDot ext hext

/-- A choice of endings is never empty, so it differs from no choice. -/
theorem ownAliasExtensions_eq {ctx other : Context}
    (h : ctx.ownAliasExtensions.getD [] = other.ownAliasExtensions.getD []) :
    ctx.ownAliasExtensions = other.ownAliasExtensions := by
  rcases hc : ctx.ownAliasExtensions with _ | exts
  · rcases ho : other.ownAliasExtensions with _ | others
    · rfl
    · rw [hc, ho] at h
      exact absurd h.symm (other.aliasExtensions_valid others ho).1
  · rcases ho : other.ownAliasExtensions with _ | others
    · rw [hc, ho] at h
      exact absurd h (ctx.aliasExtensions_valid exts hc).1
    · rw [hc, ho] at h
      exact congrArg some h

/-- **The parts determine the context.** -/
theorem parts_injective {ctx other : Context} (h : ctx.parts = other.parts) : ctx = other := by
  have h' : "root" :: ctx.projectRoot.text :: "ext" ::
        (ctx.extensions ++ "alias" :: (ctx.aliasRoots
          ++ "alias_ext" :: ctx.ownAliasExtensions.getD []))
      = "root" :: other.projectRoot.text :: "ext" ::
        (other.extensions ++ "alias" :: (other.aliasRoots
          ++ "alias_ext" :: other.ownAliasExtensions.getD [])) := by
    simpa [parts] using h
  obtain ⟨hroot, htail⟩ := List.cons.inj (List.cons.inj h').2
  have hroot' : ctx.projectRoot = other.projectRoot := congrArg Path.mk hroot
  -- no tag starts with a dot, so the first one ends the endings in front
  obtain ⟨hexts, haliases⟩ := append_cons_injective (P := StartsWithDot) (by decide)
    ctx.extensions_valid.startsWithDot other.extensions_valid.startsWithDot
    (List.cons.inj htail).2
  -- directories may be spelled like anything: the last tag is found from the back
  obtain ⟨hroots, hown⟩ := append_cons_injective_right (P := StartsWithDot) (by decide)
    ctx.startsWithDot_aliasExtensions other.startsWithDot_aliasExtensions haliases
  have hown' := ownAliasExtensions_eq hown
  cases ctx
  cases other
  cases hroot'
  cases hexts
  cases hroots
  cases hown'
  rfl

/-- The texts of a context fit into memory. -/
def Framable (ctx : Context) : Prop :=
  ∀ part ∈ ctx.parts, ModuleLookup.Framable part

/-- **Fingerprints tell contexts apart** as far as the hash tells their framed parts
apart. -/
theorem eq_of_fingerprint_eq {ctx other : Context} (hc : ctx.Framable) (ho : other.Framable)
    (hash : Blake3.hash (framedParts ctx.parts) = Blake3.hash (framedParts other.parts) →
      framedParts ctx.parts = framedParts other.parts)
    (h : ctx.fingerprint = other.fingerprint) : ctx = other :=
  parts_injective (framedParts_injective hc ho (hash (hash_eq_of_digest_eq h)))

/-- **The bytes to be hashed are those of one context**: they are the same just for the same
root, endings, directories and choice of other endings, in the same order, whatever the
directories are called. So fingerprints are equal just for equal contexts, as long as the hash
does not collide on the two. -/
theorem framedParts_eq_iff {ctx other : Context} (hc : ctx.Framable) (ho : other.Framable) :
    (framedParts ctx.parts = framedParts other.parts ↔
        ctx.projectRoot.text = other.projectRoot.text ∧ ctx.extensions = other.extensions ∧
          ctx.aliasRoots = other.aliasRoots ∧
          ctx.ownAliasExtensions = other.ownAliasExtensions) ∧
      ((Blake3.hash (framedParts ctx.parts) = Blake3.hash (framedParts other.parts) →
          framedParts ctx.parts = framedParts other.parts) →
        (ctx.fingerprint = other.fingerprint ↔ ctx = other)) := by
  refine ⟨⟨?_, ?_⟩, fun hash => ⟨eq_of_fingerprint_eq hc ho hash, congrArg fingerprint⟩⟩
  · intro h
    obtain rfl := parts_injective (framedParts_injective hc ho h)
    exact ⟨rfl, rfl, rfl, rfl⟩
  · rintro ⟨hroot, hexts, hroots, hown⟩
    rw [parts, parts, hroot, hexts, hroots, hown]

theorem validExtensions_js : ValidExtensions [".js"] := by decide +kernel

theorem validRoot_likeTags : ∀ root ∈ ["alias_ext", ".js"], ValidRoot root := by
  decide +kernel

theorem validExtensions_of_mem_js : ∀ exts ∈ some [".js"], ValidExtensions exts := by
  rintro exts ⟨⟩
  exact validExtensions_js

/-- A context whose directories are called like a tag and like an ending. -/
def rootsLikeTags : Context :=
  { withDefaults ⟨"/p"⟩ with
    extensions := [".js"]
    extensions_valid := validExtensions_js
    aliasRoots := ["alias_ext", ".js"]
    aliasRoots_valid := validRoot_likeTags }

/-- A context without directories, with an ending of its own for them. Its parts are those of
`rootsLikeTags` up to the last tag. -/
def rootsMissing : Context :=
  { withDefaults ⟨"/p"⟩ with
    extensions := [".js"]
    extensions_valid := validExtensions_js
    ownAliasExtensions := some [".js"]
    aliasExtensions_valid := validExtensions_of_mem_js }

/-- Tags among the directories do not confuse contexts, nor their fingerprints. -/
theorem framedParts_eq_iff_rootsLikeTags :
    rootsLikeTags.parts = rootsMissing.parts ++ ["alias_ext"] ∧
      framedParts rootsLikeTags.parts ≠ framedParts rootsMissing.parts ∧
      rootsLikeTags.fingerprint ≠ rootsMissing.fingerprint := by
  have hiff := @framedParts_eq_iff rootsLikeTags rootsMissing
    (by rw [Framable]; decide +kernel) (by rw [Framable]; decide +kernel)
  have hhash : Blake3.hash (framedParts rootsLikeTags.parts)
      ≠ Blake3.hash (framedParts rootsMissing.parts) := by
    decide +kernel
  refine ⟨rfl, ?_, ?_⟩
  · intro h
    have hroots := (hiff.1.1 h).2.2.1
    cases hroots
  · intro h
    have heq := (hiff.2 fun hsame => absurd hsame hhash).1 h
    have hroots : rootsLikeTags.aliasRoots = rootsMissing.aliasRoots :=
      congrArg Context.aliasRoots heq
    cases hroots

end Context

end ModuleLookup
