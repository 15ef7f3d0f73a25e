import ModuleLookup.Proofs.Lookup.AliasOrder
import ModuleLookup.Proofs.Lookup.BrokenManifest
import ModuleLookup.Proofs.Lookup.Names
import ModuleLookup.Proofs.Path.EndName

/-!
# Endings keep a lookup in place

An ending is written behind the text of a path, and the text is then read as a path again. What
is checked of endings is enough for that not to lead anywhere else: behind a name an ending makes
another name beside it, and behind `index` a name right below. So where a path ends in a name, a
lookup looks at the path, beside it and right below it, and each ending looks somewhere else.

* `Path.KeptInPlace` — what an ending makes of a path that ends in a name, and
  `Path.EndsIn.keptInPlace`; `Path.EndsIn.apart` — different endings make different paths.
* `Attempt.AsksOnly` — an attempt asks for files at some paths only, whatever is answered.
* `Path.InPlace` — at a path, beside it or right below it; `inPlace_of_mem_rootNames` — what is
  tried for a path that ends in a name.
* `probes_in_place` — so the endings of a context keep its lookups in place.
-/

namespace ModuleLookup

/-! ## Endings behind names -/

/-- The endings of a context. -/
def Context.Uses (ctx : Context) (e : String) : Prop :=
  e ∈ ctx.extensions ∨ e ∈ ctx.aliasExtensions

theorem Context.Uses.validExtension {ctx : Context} {e : String} (h : ctx.Uses e) :
    ValidExtension e := by
  rcases h with h | h
  · exact ctx.extensions_valid.2 e h
  · exact ctx.validExtensions_aliasExtensions.2 e h

namespace Path

/-- What the ending `e` makes of a path with the name `s`. -/
structure KeptInPlace (x : Path) (s e : String) : Prop where
  /-- the path with the ending is in the same directory -/
  parent : ∃ dir, x.parent? = some dir ∧ (x.withSuffix e).parent? = some dir
  /-- under the name with the ending -/
  name : x.fileName? = some s ∧ (x.withSuffix e).fileName? = some (s ++ e)
  /-- which is the name of no other directory -/
  plain : s ++ e ≠ "." ∧ s ++ e ≠ ".."
  /-- the index file with the ending is right below the path -/
  below : (indexFile x e).parent? = some x ∧ (indexFile x e).fileName? = some ("index" ++ e)

/-- What two endings make of a path are different paths, and none of them is the path. -/
structure Apart (x : Path) (e f : String) : Prop where
  /-- a name with an ending is another name -/
  self : ¬(x.withSuffix e).Same x ∧ ¬(indexFile x e).Same x
  /-- what is beside the path is not below it -/
  kinds : ¬(x.withSuffix e).Same (indexFile x f)
  /-- the endings can be told from what they make -/
  endings : e ≠ f → ¬(x.withSuffix e).Same (x.withSuffix f) ∧
    ¬(indexFile x e).Same (indexFile x f)

variable {x : Path} {s e f : String}

/-- **An ending keeps a name in place.** -/
theorem EndsIn.keptInPlace (h : x.EndsIn s) (he : ValidExtension e) : x.KeptInPlace s e := by
  have hname := h.1.append_extension he
  have hindex := properName_index he
  obtain ⟨cs, dir, ⟨-, hparent⟩, hsuffix⟩ := h.exists_forms
  refine ⟨⟨dir, hparent, (hsuffix e hname).2⟩, ⟨h.fileName?_eq, (h.withSuffix hname).fileName?_eq⟩,
    ⟨?_, ?_⟩, h.parent?_join hindex, fileName?_join hindex x⟩
  · intro hdot
    exact hname.1.2.1 (congrArg String.toList hdot)
  · intro hdots
    exact hname.1.2.2 (congrArg String.toList hdots)

/-- Different endings make different paths. -/
theorem EndsIn.apart (h : x.EndsIn s) (he : ValidExtension e) (hf : ValidExtension f) :
    x.Apart e f := by
  obtain ⟨cs, dir, ⟨hx, -⟩, hsuffix⟩ := h.exists_forms
  have hxe := (hsuffix e (h.1.append_extension he)).1
  have hxf := (hsuffix f (h.1.append_extension hf)).1
  have hie : (indexFile x e).components = cs ++ [.name s, .name ("index" ++ e)] := by
    rw [indexFile, components_join_name (properName_index he), hx, List.append_assoc]
    rfl
  have hif : (indexFile x f).components = cs ++ [.name s, .name ("index" ++ f)] := by
    rw [indexFile, components_join_name (properName_index hf), hx, List.append_assoc]
    rfl
  have hne : e ≠ "" := by
    rintro rfl
    exact absurd he (by decide)
  refine ⟨⟨?_, ?_⟩, ?_, fun hef => ⟨?_, ?_⟩⟩
  · rw [Same, hxe, hx, List.append_cancel_left_eq]
    intro heq
    have htext : s ++ e = s := Component.name.inj (List.cons.inj heq).1
    exact hne (String.append_eq_left_iff.1 htext)
  · rw [Same, hie, hx, List.append_cancel_left_eq]
    intro heq
    cases (List.cons.inj heq).2
  · rw [Same, hxe, hif, List.append_cancel_left_eq]
    intro heq
    cases (List.cons.inj heq).2
  · rw [Same, hxe, hxf, List.append_cancel_left_eq]
    intro heq
    have htext : s ++ e = s ++ f := Component.name.inj (List.cons.inj heq).1
    exact hef ((String.append_right_inj s).1 htext)
  · rw [Same, hie, hif, List.append_cancel_left_eq]
    intro heq
    have htext : "index" ++ e = "index" ++ f :=
      Component.name.inj (List.cons.inj (List.cons.inj heq).2).1
    exact hef ((String.append_right_inj "index").1 htext)

/-- Where a path is looked for with some endings: at the path, beside it under its name with an
ending, and right below it under `index` with an ending. -/
inductive InPlace (x : Path) (exts : List String) : Path → Prop where
  /-- at the path -/
  | self : InPlace x exts x
  /-- in the same directory -/
  | beside {q dir : Path} {s e : String} (he : e ∈ exts) (hx : x.parent? = some dir)
      (hq : q.parent? = some dir) (hs : x.fileName? = some s) (hname : q.fileName? = some (s ++ e)) :
      InPlace x exts q
  /-- in the directory that the path is -/
  | below {q : Path} {e : String} (he : e ∈ exts) (hq : q.parent? = some x)
      (hname : q.fileName? = some ("index" ++ e)) : InPlace x exts q

end Path

/-! ## What is tried for a path -/

section Names

variable {x q : Path} {s : String} {exts : List String}

theorem inPlace_withSuffix {e : String} (h : x.EndsIn s) (hexts : ∀ e ∈ exts, ValidExtension e)
    (he : e ∈ exts) : x.InPlace exts (x.withSuffix e) := by
  obtain ⟨⟨dir, hx, hq⟩, ⟨hs, hname⟩, -, -⟩ := h.keptInPlace (hexts e he)
  exact .beside he hx hq hs hname

theorem inPlace_indexFile {e : String} (h : x.EndsIn s) (hexts : ∀ e ∈ exts, ValidExtension e)
    (he : e ∈ exts) : x.InPlace exts (indexFile x e) := by
  obtain ⟨-, -, -, hq, hname⟩ := h.keptInPlace (hexts e he)
  exact .below he hq hname

theorem inPlace_of_mem_fileNames (h : x.EndsIn s) (hexts : ∀ e ∈ exts, ValidExtension e)
    (hq : q ∈ fileNames x exts) : x.InPlace exts q := by
  rcases List.mem_cons.1 hq with rfl | hq
  · exact .self
  · obtain ⟨e, he, rfl⟩ := List.mem_map.1 hq
    exact inPlace_withSuffix h hexts he

theorem inPlace_of_mem_indexNames (h : x.EndsIn s) (hexts : ∀ e ∈ exts, ValidExtension e)
    (hq : q ∈ indexNames x exts) : x.InPlace exts q := by
  obtain ⟨e, he, rfl⟩ := List.mem_map.1 hq
  exact inPlace_indexFile h hexts he

theorem inPlace_of_mem_rootNames (h : x.EndsIn s) (hexts : ∀ e ∈ exts, ValidExtension e)
    (hq : q ∈ rootNames x exts) : x.InPlace exts q := by
  rcases List.mem_cons.1 hq with rfl | hq
  · exact .self
  · obtain ⟨e, he, hq⟩ := List.mem_flatMap.1 hq
    rcases List.mem_cons.1 hq with rfl | hq
    · exact inPlace_withSuffix h hexts he
    · obtain rfl := List.mem_singleton.1 hq
      exact inPlace_indexFile h hexts he

end Names

/-! ## What is asked -/

/-- An attempt asks for files at some paths only, whatever is answered. -/
def Attempt.AsksOnly (a : Attempt) (P : Path → Prop) : Prop :=
  ∀ es o, a.Ends es o → ∀ e ∈ es, ∃ p, P p ∧ e.question = .isFile p

section Asks

open Attempt

variable {P : Path → Prop} {a b : Attempt}

theorem asksOnly_probe {p : Path} (kind : StepKind) (detail : String) (hp : P p) :
    (probe kind detail p).AsksOnly P := by
  intro es o h e he
  obtain ⟨there, rfl, -⟩ := ends_probe_iff.1 h
  obtain rfl := List.mem_singleton.1 he
  exact ⟨p, hp, rfl⟩

theorem asksOnly_giveUp (kind : StepKind) (detail : String) (path : Option Path) :
    (giveUp kind detail path).AsksOnly P := by
  intro es o h e he
  obtain ⟨rfl, -⟩ := ends_giveUp_iff.1 h
  exact absurd he List.not_mem_nil

theorem Attempt.AsksOnly.orElse (ha : a.AsksOnly P) (hb : b.AsksOnly P) :
    (a.orElse b).AsksOnly P := by
  intro es o h e he
  obtain ⟨before, after, rfl, hbefore, hafter⟩ | ⟨-, hfirst⟩ := ends_orElse_iff.1 h
  · rcases List.mem_append.1 he with he | he
    · exact ha _ _ hbefore e he
    · exact hb _ _ hafter e he
  · exact ha _ _ hfirst e he

theorem asksOnly_firstOf {α : Type} {f : α → Attempt} {xs : List α}
    (h : ∀ x ∈ xs, (f x).AsksOnly P) : (firstOf (xs.map f)).AsksOnly P := by
  induction xs with
  | nil =>
    intro es o hends e he
    obtain ⟨rfl, -⟩ := Program.ends_done_iff.1 hends
    exact absurd he List.not_mem_nil
  | cons x xs ih =>
    exact (h x List.mem_cons_self).orElse (ih fun y hy => h y (List.mem_cons_of_mem x hy))

theorem asksOnly_asFile {x : Path} {exts : List String} (h : ∀ q ∈ fileNames x exts, P q) :
    (asFile x exts).AsksOnly P := by
  have hendings : ∀ e ∈ exts, P (x.withSuffix e) :=
    fun e he => h _ (List.mem_cons_of_mem _ (List.mem_map_of_mem he))
  exact ((asksOnly_probe _ _ (h x List.mem_cons_self)).orElse
    (asksOnly_firstOf fun e he => asksOnly_probe _ _ (hendings e he))).orElse
      (asksOnly_giveUp _ _ _)

theorem asksOnly_asIndex {x : Path} {exts : List String} (h : ∀ q ∈ indexNames x exts, P q) :
    (asIndex x exts).AsksOnly P :=
  (asksOnly_firstOf fun _ he => asksOnly_probe _ _ (h _ (List.mem_map_of_mem he))).orElse
    (asksOnly_giveUp _ _ _)

theorem asksOnly_underRoot {spec root : String} {projectRoot : Path} {exts : List String}
    (h : ∀ q ∈ rootNames (aliasPlace projectRoot spec root) exts, P q) :
    (underRoot spec projectRoot exts root).AsksOnly P := by
  have hendings : ∀ e ∈ exts, P ((aliasPlace projectRoot spec root).withSuffix e) ∧
      P (indexFile (aliasPlace projectRoot spec root) e) := by
    intro e he
    have hmem (q) (hq : q ∈ [_, _]) : P q :=
      h q (List.mem_cons_of_mem _ (List.mem_flatMap.2 ⟨e, he, hq⟩))
    exact ⟨hmem _ List.mem_cons_self, hmem _ (List.mem_cons_of_mem _ List.mem_cons_self)⟩
  exact (asksOnly_probe _ _ (h _ List.mem_cons_self)).orElse (asksOnly_firstOf fun e he =>
    (asksOnly_probe _ _ (hendings e he).1).orElse (asksOnly_probe _ _ (hendings e he).2))

theorem asksOnly_underAliases {spec : String} {projectRoot : Path} {roots exts : List String}
    (h : ∀ root ∈ roots, ∀ q ∈ rootNames (aliasPlace projectRoot spec root) exts, P q) :
    (underAliases spec projectRoot roots exts).AsksOnly P :=
  (asksOnly_firstOf fun root hroot => asksOnly_underRoot (h root hroot)).orElse
    (asksOnly_giveUp _ _ _)

end Asks

/-- **The endings of a context keep its lookups in place.** Every ending that it uses makes of a
path that ends in a name, as normal forms do apart from three kinds, another name in the same
directory and an index right below the path, and different endings make different paths. So for
such a path files are asked for only at the path, beside it and right below it, as a file, as an
index and in the project's own directories, whatever is answered. -/
theorem probes_in_place (ctx : Context) :
    (∀ (x : Path) (s : String), x.EndsIn s →
      (∀ e, ctx.Uses e → x.KeptInPlace s e) ∧
      (∀ e f, ctx.Uses e → ctx.Uses f → x.Apart e f) ∧
      (asFile x ctx.extensions).AsksOnly (x.InPlace ctx.extensions) ∧
      (asIndex x ctx.extensions).AsksOnly (x.InPlace ctx.extensions)) ∧
    (∀ spec : String,
      (underAliases spec ctx.projectRoot ctx.aliasRoots ctx.aliasExtensions).AsksOnly fun q =>
        ∃ root ∈ ctx.aliasRoots,
          q ∈ rootNames (aliasPlace ctx.projectRoot spec root) ctx.aliasExtensions ∧
          ∀ s, (aliasPlace ctx.projectRoot spec root).EndsIn s →
            (aliasPlace ctx.projectRoot spec root).InPlace ctx.aliasExtensions q) ∧
    ∀ p : Path, p.normalize = ⟨"/"⟩ ∨ p.normalize = ⟨"."⟩ ∨
      p.normalize.components.getLast? = some .parent ∨ ∃ s, p.normalize.EndsIn s := by
  refine ⟨fun x s h => ⟨?_, ?_, ?_, ?_⟩, fun spec => ?_, Path.endsIn_normalize⟩
  · intro e he
    exact h.keptInPlace he.validExtension
  · intro e f he hf
    exact h.apart he.validExtension hf.validExtension
  · exact asksOnly_asFile fun q => inPlace_of_mem_fileNames h ctx.extensions_valid.2
  · exact asksOnly_asIndex fun q => inPlace_of_mem_indexNames h ctx.extensions_valid.2
  · apply asksOnly_underAliases
    intro root hroot q hq
    refine ⟨root, hroot, hq, fun s h => ?_⟩
    exact inPlace_of_mem_rootNames h ctx.validExtensions_aliasExtensions.2 hq

theorem endsIn_climbing : (Path.mk "../lib//x.min").EndsIn "x.min" :=
  ⟨by decide, "../lib//", by decide, .inr (by decide)⟩

/-- A path that climbs, with a separator to spare: an ending stays beside it, where a file is asked
for. -/
theorem probes_in_place_climbing :
    (Path.mk "../lib//x.min").EndsIn "x.min" ∧ (Context.withDefaults ⟨"/p"⟩).Uses ".js" ∧
      (Path.mk "../lib//x.min").KeptInPlace "x.min" ".js" ∧
      .isFile ⟨"../lib//x.min.js"⟩ ∈
        (asFile ⟨"../lib//x.min"⟩ Settings.defaultResolveExtensions).asked Memory.empty.disk ∧
      (Path.mk "../lib//x.min").InPlace Settings.defaultResolveExtensions
        ⟨"../lib//x.min.js"⟩ := by
  have huses : (Context.withDefaults ⟨"/p"⟩).Uses ".js" := .inl (by decide)
  obtain ⟨hkept, -, hfile, -⟩ := (probes_in_place (Context.withDefaults ⟨"/p"⟩)).1 _ _
    endsIn_climbing
  have hasked : Query.isFile ⟨"../lib//x.min.js"⟩ ∈
      (asFile ⟨"../lib//x.min"⟩ Settings.defaultResolveExtensions).asked Memory.empty.disk := by
    decide +kernel
  obtain ⟨p, hp, hquestion⟩ := hfile _ _ (Program.ends_asked Memory.empty.disk _) _
    (List.mem_map_of_mem hasked)
  obtain rfl := Query.isFile.inj hquestion
  exact ⟨endsIn_climbing, huses, hkept ".js" huses, hasked, hp⟩

end ModuleLookup
