import ModuleLookup.Proofs.Path.Ancestors

/-!
# Paths that end in a name

The text of a path may end in a plain name, with nothing or a separator in front of it. Then the
name is the last component, whatever the rest of the text looks like, and the parent is made from
what is in front of the name alone. So another name in its place has the same parent, and a name
written behind it has the path as its parent, down to the text.

* `Path.EndsIn` — the text of a path ends in a name.
* `Path.EndsIn.exists_forms` — one front for the components and the parent, whatever the name is.
* `Path.EndsIn.parent?_join` — a name behind such a path is right below it.
* `Path.endsIn_normalize` — which normal forms end in a name.
-/

namespace ModuleLookup

namespace Path

/-- The text of a path ends in a plain name: there is nothing in front of it, or a separator. -/
def EndsIn (p : Path) (s : String) : Prop :=
  ProperName s ∧ ∃ front : String, p.text = front ++ s ∧
    (front = "" ∨ front.toList.getLast? = some '/')

/-! ## What is in front of a name -/

section Front

variable {front : String}

/-- The segments in front of a name do not depend on it. -/
theorem exists_segments_append (h : front.toList.getLast? = some '/') :
    ∃ s ss, ∀ t : List Char, '/' ∉ t → segments (front.toList ++ t) = s :: (ss ++ [t]) := by
  obtain ⟨cs, hcs⟩ := List.getLast?_eq_some_iff.1 h
  obtain ⟨s, ss, hss⟩ := List.exists_cons_of_ne_nil (segments_ne_nil cs)
  refine ⟨s, ss, fun t ht => ?_⟩
  rw [hcs, List.append_assoc, List.singleton_append, segments_append_separator, hss,
    segments_eq_singleton ht]
  rfl

/-- Neither do the components in front of it. -/
theorem exists_components_append (h : front = "" ∨ front.toList.getLast? = some '/') :
    ∃ cs : List Component, ∀ s, ProperName s → components ⟨front ++ s⟩ = cs ++ [.name s] := by
  rcases h with rfl | h
  · refine ⟨[], fun s hs => ?_⟩
    rw [String.empty_append]
    exact components_text (c := .name s) hs
  · obtain ⟨cs, hcs⟩ := List.getLast?_eq_some_iff.1 h
    refine ⟨componentsOf (cs ++ ['/']), fun s hs => ?_⟩
    rw [components, String.toList_append, hcs, List.append_assoc, List.singleton_append,
      componentsOf_append_separator, segments_eq_singleton hs.2, List.filterMap_cons_some
      (Component.ofSegment?_of_properName hs), List.filterMap_nil]

/-- And neither does the parent, which is always there. -/
theorem exists_parent?_append (h : front = "" ∨ front.toList.getLast? = some '/') :
    ∃ dir, ∀ s, ProperName s → parent? ⟨front ++ s⟩ = some dir := by
  rcases h with rfl | h
  · refine ⟨⟨""⟩, fun s hs => ?_⟩
    rw [String.empty_append, parent?, segments_eq_singleton hs.2]
    exact if_neg hs.1.1
  · obtain ⟨first, ss, hss⟩ := exists_segments_append h
    refine ⟨⟨String.ofList (joinSegments first (trimSegments ss))⟩, fun s hs => ?_⟩
    have hsegments : segments (front ++ s).toList = first :: (ss ++ [s.toList]) := by
      rw [String.toList_append, hss _ hs.2]
    exact parent?_concat hsegments (isSome_ofSegment?_of_properName hs)

end Front

/-! ## The last name -/

section EndsIn

variable {p : Path} {s t : String}

/-- **One front for all names**: the components and the parent of a path that ends in a name, and
those of the path with more behind the name. -/
theorem EndsIn.exists_forms (h : p.EndsIn s) :
    ∃ cs dir, (p.components = cs ++ [.name s] ∧ p.parent? = some dir) ∧
      ∀ e, ProperName (s ++ e) →
        (p.withSuffix e).components = cs ++ [.name (s ++ e)] ∧
          (p.withSuffix e).parent? = some dir := by
  obtain ⟨hs, front, htext, hfront⟩ := h
  obtain ⟨cs, hcs⟩ := exists_components_append hfront
  obtain ⟨dir, hdir⟩ := exists_parent?_append hfront
  obtain rfl : p = ⟨front ++ s⟩ := congrArg Path.mk htext
  refine ⟨cs, dir, ⟨hcs s hs, hdir s hs⟩, fun e he => ?_⟩
  have hsuffix : withSuffix ⟨front ++ s⟩ e = ⟨front ++ (s ++ e)⟩ :=
    congrArg Path.mk String.append_assoc
  rw [hsuffix]
  exact ⟨hcs _ he, hdir _ he⟩

/-- The path with more behind its name ends in the longer name. -/
theorem EndsIn.withSuffix {e : String} (h : p.EndsIn s) (he : ProperName (s ++ e)) :
    (p.withSuffix e).EndsIn (s ++ e) := by
  obtain ⟨-, front, htext, hfront⟩ := h
  refine ⟨he, front, ?_, hfront⟩
  rw [Path.withSuffix, htext, String.append_assoc]

theorem fileName?_of_components {cs : List Component} (h : p.components = cs ++ [.name s]) :
    p.fileName? = some s := by
  rw [fileName?, h, List.getLast?_concat]

/-- The name at the end is the name of the file. -/
theorem EndsIn.fileName?_eq (h : p.EndsIn s) : p.fileName? = some s := by
  obtain ⟨cs, dir, ⟨hcs, -⟩, -⟩ := h.exists_forms
  exact fileName?_of_components hcs

theorem fileName?_join (ht : ProperName t) (base : Path) :
    (base.join ⟨t⟩).fileName? = some t :=
  fileName?_of_components (components_join_name ht base)

/-- The segments of the text, none of which would be trimmed off. -/
theorem EndsIn.exists_segments (h : p.EndsIn s) :
    ∃ first ss, segments p.text.toList = first :: ss ∧ trimSegments ss = ss ∧
      (first ≠ [] ∨ ss ≠ []) := by
  obtain ⟨hs, front, htext, hfront⟩ := h
  rw [htext]
  rcases hfront with rfl | hfront
  · refine ⟨s.toList, [], ?_, rfl, .inl hs.1.1⟩
    rw [String.empty_append, segments_eq_singleton hs.2]
  · obtain ⟨first, ss, hss⟩ := exists_segments_append hfront
    refine ⟨first, ss ++ [s.toList], ?_, ?_, .inr (by simp)⟩
    · rw [String.toList_append, hss _ hs.2]
    · exact trimSegments_concat (isSome_ofSegment?_of_properName hs) ss

/-- **Right below a path.** A name behind a path that ends in a name has that path as its
parent. -/
theorem EndsIn.parent?_join (h : p.EndsIn s) (ht : ProperName t) :
    (p.join ⟨t⟩).parent? = some p := by
  obtain ⟨first, ss, hss, htrim, hne⟩ := h.exists_segments
  obtain ⟨hs, front, htext, -⟩ := h
  have hslash : p.text.toList.getLast? ≠ some '/' := by
    rw [htext, String.toList_append]
    exact getLast?_append_ne_slash hs.1.1 hs.2 front.toList
  have hempty : p.text ≠ "" := by
    rw [htext]
    intro hnil
    exact hs.ne_empty (String.append_eq_empty_iff.1 hnil).2
  have hjoin : segments (p.join ⟨t⟩).text.toList = first :: (ss ++ [t.toList]) := by
    rw [toList_join hempty hslash (isAbsolute_of_properName ht), segments_append_separator, hss,
      segments_eq_singleton ht.2]
    rfl
  have hback : String.ofList (joinSegments first ss) = p.text := by
    rw [joinSegments_of_ne hne, ← eq_append_flatMap_of_segments hss, String.ofList_toList]
  rw [parent?_concat hjoin (isSome_ofSegment?_of_properName ht), htrim, hback]

/-! ## Normal forms -/

/-- A name behind any path is at its end. -/
theorem endsIn_join (hs : ProperName s) (base : Path) : (base.join ⟨s⟩).EndsIn s := by
  refine ⟨hs, ?_⟩
  rw [join, isAbsolute_of_properName hs, if_neg Bool.false_ne_true, String.back?_eq]
  split
  · next h =>
    refine ⟨base.text, rfl, .inl ?_⟩
    exact String.toList_eq_nil_iff.1 (List.getLast?_eq_none_iff.1 h)
  · next h => exact ⟨base.text, rfl, .inr h⟩
  · refine ⟨base.text ++ "/", rfl, .inr ?_⟩
    rw [String.toList_append]
    exact List.getLast?_concat

/-- **Normal forms end in a name**, apart from the root, a lone `.`, and those that end in `..`. -/
theorem endsIn_normalize (p : Path) :
    p.normalize = ⟨"/"⟩ ∨ p.normalize = ⟨"."⟩ ∨ p.normalize.components.getLast? = some .parent ∨
      ∃ s, p.normalize.EndsIn s := by
  have hsettled := settled_normalComponents p
  rcases List.eq_nil_or_concat p.normalComponents with hnil | ⟨init, c, hconcat⟩
  · exact .inr (.inl (normalize_of_eq_nil hnil))
  · rw [List.concat_eq_append] at hconcat
    have hne : p.normalComponents ≠ [] := by simp [hconcat]
    rw [hconcat, List.reverse_append, List.reverse_singleton, List.singleton_append] at hsettled
    cases c with
    | root =>
      obtain rfl : init = [] := List.reverse_eq_nil_iff.1 hsettled
      left
      rw [normalize_of_ne_nil hne, hconcat]
      rfl
    | current => exact hsettled.elim
    | parent =>
      refine .inr (.inr (.inl ?_))
      rw [components_normalize hne, hconcat, List.getLast?_concat]
    | name s =>
      refine .inr (.inr (.inr ⟨s, ?_⟩))
      rw [normalize_of_ne_nil hne, hconcat, ofComponents_append]
      exact endsIn_join hsettled.1 (ofComponents init)

end EndsIn

end Path

end ModuleLookup
