import ModuleLookup.Proofs.Path.Join

/-!
# Normal forms

The normal form of a path is what one pass over its components leaves on a stack. A name may be
pushed on anything, but a `..` stays only on the bare bottom or on another `..`, and the root
only at the bottom; so every `..` that is left stands at the front of a relative path.

* `Path.components_of_isAbsolute`, `Path.components_of_not_isAbsolute` — the components of a
  path are its start and then what it adds behind any other path.
* `Path.Settled` — the stacks that a pass can leave; `settled_push` is one component and
  `settled_normalComponents` the whole pass.
* `Path.components_normalize` — the normal form is written so that it reads back as the stack.
* `Path.normalComponents_join` — normalizing a joined path goes on where the first path ended.
* `Path.foldl_push_append` and `Path.exists_foldl_push_climb` — components that leave only
  names behind never look at what was on the stack before; any others take away what is on top
  of it.
* `Path.components_withSuffix_normalize` — a suffix becomes part of the last name.
-/

namespace ModuleLookup

/-! ## Components -/

/-- A name that a path can hold. -/
def ProperName (s : String) : Prop :=
  (s.toList ≠ [] ∧ s.toList ≠ ['.'] ∧ s.toList ≠ ['.', '.']) ∧ '/' ∉ s.toList

instance (s : String) : Decidable (ProperName s) :=
  inferInstanceAs (Decidable (_ ∧ _))

theorem ProperName.ne_empty {s : String} (h : ProperName s) : s ≠ "" :=
  fun hs => h.1.1 (String.toList_eq_nil_iff.2 hs)

/-- More text that is long enough makes another name of a name. -/
theorem ProperName.append {s e : String} (h : ProperName s) (he : 2 ≤ e.toList.length)
    (hslash : '/' ∉ e.toList) : ProperName (s ++ e) := by
  have hlength : 3 ≤ (s.toList ++ e.toList).length := by
    have hs : 0 < s.toList.length := List.length_pos_iff.2 h.1.1
    rw [List.length_append]
    omega
  rw [ProperName, String.toList_append]
  refine ⟨⟨?_, ?_, ?_⟩, fun hmem => (List.mem_append.1 hmem).elim h.2 hslash⟩ <;>
    (intro heq; rw [heq] at hlength; exact absurd hlength (by decide))

namespace Component

/-- Whether this is a plain name. -/
def isName : Component → Bool
  | name _ => true
  | _ => false

/-- What may stand behind the start of a path. -/
def Inner : Component → Prop
  | name s => ProperName s
  | parent => True
  | root | current => False

theorem ofSegment?_of_properName {s : String} (h : ProperName s) :
    ofSegment? s.toList = some (name s) := by
  obtain ⟨⟨hempty, hdot, hdots⟩, -⟩ := h
  unfold ofSegment?
  split
  · next hs => exact absurd hs hempty
  · next hs => exact absurd hs hdot
  · next hs => exact absurd hs hdots
  · rw [String.ofList_toList]

theorem toList_of_ofSegment? {s : List Char} {t : String} (h : ofSegment? s = some (name t)) :
    t.toList = s := by
  unfold ofSegment? at h
  split at h
  · cases h
  · cases h
  · cases h
  · cases h
    exact String.toList_ofList

/-- A segment stands for a name or for `..`. -/
theorem inner_of_ofSegment? {s : List Char} {c : Component} (hs : '/' ∉ s)
    (h : ofSegment? s = some c) : c.Inner := by
  unfold ofSegment? at h
  split at h
  · cases h
  · cases h
  · cases h
    trivial
  · next hempty hdot hdots =>
    cases h
    rw [Inner, ProperName, String.toList_ofList]
    exact ⟨⟨hempty, hdot, hdots⟩, hs⟩

end Component

/-- Only a separator leaves an empty segment in front of another. -/
theorem head?_of_segments_eq_nil_cons {cs t : List Char} {ts : List (List Char)}
    (h : segments cs = [] :: t :: ts) : cs.head? = some '/' := by
  cases cs with
  | nil => cases h
  | cons c cs =>
    rw [segments] at h
    split at h
    · next hc => rw [hc, List.head?_cons]
    · split at h <;> cases h

/-- Segments are pieces of the text. -/
theorem length_le_of_mem_segments {cs s : List Char} (h : s ∈ segments cs) :
    s.length ≤ cs.length := by
  induction cs generalizing s with
  | nil =>
    obtain rfl : s = [] := by simpa [segments] using h
    exact Nat.zero_le _
  | cons c cs ih =>
    rw [segments] at h
    split at h
    · rcases List.mem_cons.1 h with rfl | h
      · exact Nat.zero_le _
      · exact Nat.le_succ_of_le (ih h)
    · split at h
      · next hs => exact absurd hs (segments_ne_nil cs)
      · next t ts hs =>
        rcases List.mem_cons.1 h with rfl | h
        · exact Nat.succ_le_succ (ih (hs ▸ List.mem_cons_self))
        · exact Nat.le_succ_of_le (ih (hs ▸ List.mem_cons_of_mem t h))

namespace Path

theorem inner_of_mem_added {p : Path} {c : Component} (h : c ∈ p.added) : c.Inner := by
  obtain ⟨s, hs, hc⟩ := List.mem_filterMap.1 h
  exact Component.inner_of_ofSegment? (not_mem_of_mem_segments hs) hc

theorem isAbsolute_iff {p : Path} : p.isAbsolute = true ↔ p.text.toList.head? = some '/' := by
  rw [isAbsolute, String.front?_eq, beq_iff_eq]

/-- An absolute path starts at the root. -/
theorem components_of_isAbsolute {p : Path} (h : p.isAbsolute = true) :
    p.components = .root :: p.added := by
  obtain ⟨cs, hcs⟩ := List.head?_eq_some_iff.1 (isAbsolute_iff.1 h)
  have hs : segments p.text.toList = [] :: segments cs := by rw [hcs, segments, if_pos rfl]
  rw [components, componentsOf_eq hs, added, hs]
  rcases hss : segments cs with _ | ⟨t, ts⟩
  · exact absurd hss (segments_ne_nil cs)
  · rfl

/-- The components of any other path are what it adds, perhaps behind a `.`. -/
theorem components_of_not_isAbsolute {p : Path} (h : p.isAbsolute = false) :
    p.components = p.added ∨ p.components = .current :: p.added := by
  rcases hs : segments p.text.toList with _ | ⟨s, ss⟩
  · exact absurd hs (segments_ne_nil _)
  · rw [components, componentsOf_eq hs, added, hs]
    fun_cases startComponent? s ss with
    | case1 => exact .inl rfl
    | case2 t ts =>
      rw [isAbsolute_iff.2 (head?_of_segments_eq_nil_cons hs)] at h
      cases h
    | case3 => exact .inr rfl
    | case4 s ss h₁ h₂ h₃ =>
      left
      rw [List.filterMap_cons]
      cases Component.ofSegment? s <;> rfl

/-- What a path means shows whether it is absolute. -/
theorem isAbsolute_iff_head? {p : Path} :
    p.isAbsolute = true ↔ p.components.head? = some .root := by
  refine ⟨fun h => by rw [components_of_isAbsolute h, List.head?_cons], fun h => ?_⟩
  cases hp : p.isAbsolute with
  | true => rfl
  | false =>
    rcases components_of_not_isAbsolute hp with hc | hc
    · rw [hc] at h
      exact (inner_of_mem_added (List.mem_of_mem_head? h)).elim
    · rw [hc] at h
      cases h

theorem Same.isAbsolute_eq {p q : Path} (h : p.Same q) : p.isAbsolute = q.isAbsolute := by
  rw [Bool.eq_iff_iff, isAbsolute_iff_head?, isAbsolute_iff_head?, h]

theorem isAbsolute_join (base add : Path) :
    (base.join add).isAbsolute = (add.isAbsolute || base.isAbsolute) := by
  by_cases ha : add.isAbsolute = true
  · rw [join_of_isAbsolute ha, ha, Bool.true_or]
  · by_cases hb : base.text = ""
    · rw [join_of_text_eq_empty hb, show base.isAbsolute = false by rw [isAbsolute, hb]; rfl,
        Bool.or_false]
    · rw [Bool.not_eq_true] at ha
      rw [ha, Bool.false_or, Bool.eq_iff_iff, isAbsolute_iff_head?, isAbsolute_iff_head?,
        components_join hb ha]
      rcases hc : base.components with _ | ⟨c, cs⟩
      · exact absurd (components_eq_nil_iff.1 hc) hb
      · rfl

/-- A suffix that is no path of its own does not make a path absolute. -/
theorem isAbsolute_withSuffix {e : String} (he : e.toList.head? ≠ some '/') (p : Path) :
    (p.withSuffix e).isAbsolute = p.isAbsolute := by
  rw [Bool.eq_iff_iff, isAbsolute_iff, isAbsolute_iff, withSuffix, String.toList_append]
  rcases hp : p.text.toList with _ | ⟨c, cs⟩
  · rw [List.nil_append]
    exact ⟨fun h => absurd h he, fun h => by cases h⟩
  · rfl

/-! ## Stacks -/

/-- What one pass over the components of a path can leave on a stack, innermost first. -/
def Settled : List Component → Prop
  | [] => True
  | .name s :: below => ProperName s ∧ Settled below
  | .parent :: below => ∀ c ∈ below, c = .parent
  | .root :: below => below = []
  | .current :: _ => False

theorem settled_of_forall_eq_parent {stack : List Component} (h : ∀ c ∈ stack, c = .parent) :
    Settled stack := by
  cases stack with
  | nil => trivial
  | cons c below =>
    obtain rfl := h c List.mem_cons_self
    exact fun c hc => h c (List.mem_cons_of_mem _ hc)

theorem Settled.tail {c : Component} {below : List Component} (h : Settled (c :: below)) :
    Settled below := by
  cases c with
  | name s => exact h.2
  | parent => exact settled_of_forall_eq_parent h
  | root =>
    obtain rfl : below = [] := h
    trivial
  | current => exact h.elim

theorem Settled.properName {stack : List Component} {s : String} (h : Settled stack)
    (hs : .name s ∈ stack) : ProperName s := by
  induction stack with
  | nil => exact absurd hs List.not_mem_nil
  | cons c below ih =>
    rcases List.mem_cons.1 hs with rfl | hs
    · exact h.1
    · exact ih h.tail hs

/-- One component keeps a stack settled. -/
theorem settled_push {stack : List Component} {c : Component} (h : Settled stack)
    (hc : c.Inner) : Settled (push stack c) := by
  fun_cases push stack c with
  | case1 => exact h
  | case2 => exact h.tail
  | case3 => exact h
  | case4 stack c hcurrent hname hroot =>
    cases c with
    | name s => exact ⟨hc, h⟩
    | parent =>
      -- the stack is empty or has a `..` on top
      cases stack with
      | nil => exact fun _ hc => absurd hc List.not_mem_nil
      | cons top below =>
        cases top with
        | name s => exact (hname s below rfl rfl).elim
        | parent =>
          intro c hc
          rcases List.mem_cons.1 hc with rfl | hc
          · rfl
          · exact h c hc
        | root => exact (hroot below rfl rfl).elim
        | current => exact h.elim
    | root => exact hc.elim
    | current => exact hc.elim

theorem settled_foldl_push {cs stack : List Component} (h : Settled stack)
    (hcs : ∀ c ∈ cs, c.Inner) : Settled (cs.foldl push stack) := by
  induction cs generalizing stack with
  | nil => exact h
  | cons c cs ih =>
    exact ih (settled_push h (hcs c List.mem_cons_self))
      fun b hb => hcs b (List.mem_cons_of_mem c hb)

/-- What is no name stays on the stack. -/
theorem mem_push {stack : List Component} {b c : Component} (h : b ∈ stack)
    (hb : b.isName = false) : b ∈ push stack c := by
  fun_cases push stack c with
  | case1 => exact h
  | case2 s below =>
    rcases List.mem_cons.1 h with rfl | h
    · cases hb
    · exact h
  | case3 => exact h
  | case4 => exact List.mem_cons_of_mem c h

theorem mem_foldl_push {cs stack : List Component} {b : Component} (h : b ∈ stack)
    (hb : b.isName = false) : b ∈ cs.foldl push stack := by
  induction cs generalizing stack with
  | nil => exact h
  | cons c cs ih => exact ih (mem_push h hb)

/-- Nothing gets on the stack but what is put there. -/
theorem mem_of_mem_push {stack : List Component} {b c : Component} (h : b ∈ push stack c) :
    b ∈ stack ∨ b = c := by
  revert h
  fun_cases push stack c with
  | case1 => exact .inl
  | case2 => exact fun h => .inl (List.mem_cons_of_mem _ h)
  | case3 => exact .inl
  | case4 => exact fun h => (List.mem_cons.1 h).symm

theorem mem_of_mem_foldl_push {cs stack : List Component} {b : Component}
    (h : b ∈ cs.foldl push stack) : b ∈ stack ∨ b ∈ cs := by
  induction cs generalizing stack with
  | nil => exact .inl h
  | cons c cs ih =>
    rcases ih h with h | h
    · rcases mem_of_mem_push h with h | rfl
      · exact .inl h
      · exact .inr List.mem_cons_self
    · exact .inr (List.mem_cons_of_mem c h)

/-- A `.` in front does not change what is left. -/
theorem foldl_push_components {p : Path} (h : p.isAbsolute = false) (stack : List Component) :
    p.components.foldl push stack = p.added.foldl push stack := by
  rcases components_of_not_isAbsolute h with hc | hc
  · rw [hc]
  · rw [hc, List.foldl_cons, push]

/-- A whole pass leaves a settled stack. -/
theorem settled_normalComponents (p : Path) : Settled p.normalComponents.reverse := by
  rw [normalComponents, List.reverse_reverse]
  by_cases hp : p.isAbsolute = true
  · rw [components_of_isAbsolute hp, List.foldl_cons]
    exact settled_foldl_push (rfl : Settled [.root]) fun _ => inner_of_mem_added
  · rw [foldl_push_components (Bool.eq_false_iff.2 hp)]
    exact settled_foldl_push (trivial : Settled []) fun _ => inner_of_mem_added

/-- The root is only ever at the bottom. -/
theorem Settled.getLast?_of_root_mem {stack : List Component} (h : Settled stack)
    (hroot : .root ∈ stack) : stack.getLast? = some .root := by
  induction stack with
  | nil => exact absurd hroot List.not_mem_nil
  | cons c below ih =>
    rcases List.mem_cons.1 hroot with rfl | hroot
    · obtain rfl : below = [] := h
      rfl
    · rw [List.getLast?_cons, ih h.tail hroot]
      rfl

/-- The root is left just when the path is absolute. -/
theorem root_mem_normalComponents_iff {p : Path} :
    .root ∈ p.normalComponents ↔ p.isAbsolute = true := by
  rw [normalComponents, List.mem_reverse]
  refine ⟨fun h => ?_, fun h => ?_⟩
  · cases hp : p.isAbsolute with
    | true => rfl
    | false =>
      rw [foldl_push_components hp] at h
      rcases mem_of_mem_foldl_push h with h | h
      · exact absurd h List.not_mem_nil
      · exact (inner_of_mem_added h).elim
  · have hroot : .root ∈ push [] .root := List.mem_cons_self
    rw [components_of_isAbsolute h, List.foldl_cons]
    exact mem_foldl_push hroot rfl

/-- Names are left only if they were there. -/
theorem name_mem_added_of_mem_normalComponents {p : Path} {s : String}
    (h : .name s ∈ p.normalComponents) : .name s ∈ p.added := by
  rw [normalComponents, List.mem_reverse] at h
  rcases mem_of_mem_foldl_push h with h | h
  · exact absurd h List.not_mem_nil
  · cases ha : p.isAbsolute with
    | true =>
      rw [components_of_isAbsolute ha] at h
      exact List.mem_of_ne_of_mem Component.noConfusion h
    | false =>
      rcases components_of_not_isAbsolute ha with hc | hc
      · rwa [hc] at h
      · rw [hc] at h
        exact List.mem_of_ne_of_mem Component.noConfusion h

/-! ## Writing components down -/

theorem not_mem_text {c : Component} (h : c.Inner) : '/' ∉ c.text.toList := by
  cases c with
  | name s => exact h.2
  | parent => decide
  | root => exact h.elim
  | current => exact h.elim

theorem segments_text {c : Component} (h : c.Inner) :
    segments c.text.toList = [c.text.toList] :=
  segments_eq_singleton (not_mem_text h)

theorem added_text {c : Component} (h : c.Inner) : added ⟨c.text⟩ = [c] := by
  have hc : Component.ofSegment? c.text.toList = some c := by
    cases c with
    | name s => exact Component.ofSegment?_of_properName h
    | parent => rfl
    | root => exact h.elim
    | current => exact h.elim
  rw [added, segments_text h, List.filterMap_cons_some hc, List.filterMap_nil]

theorem isAbsolute_text {c : Component} (h : c.Inner) : isAbsolute ⟨c.text⟩ = false := by
  cases hc : isAbsolute ⟨c.text⟩ with
  | false => rfl
  | true => exact absurd (List.mem_of_mem_head? (isAbsolute_iff.1 hc)) (not_mem_text h)

theorem isAbsolute_of_properName {s : String} (h : ProperName s) : isAbsolute ⟨s⟩ = false :=
  isAbsolute_text (c := .name s) h

theorem components_text {c : Component} (h : c.Inner) : components ⟨c.text⟩ = [c] := by
  cases c with
  | name s =>
    have hstart : startComponent? s.toList [] = some (.name s) := by
      rw [← Component.ofSegment?_of_properName h]
      unfold startComponent?
      split
      · next hs _ => exact absurd hs h.1.1
      · next hs _ => exact absurd hs h.1.1
      · next hs => exact absurd hs h.1.2.1
      · rfl
    rw [components, componentsOf_eq (segments_text h), Component.text, hstart]
    rfl
  | parent => rfl
  | root => exact h.elim
  | current => exact h.elim

theorem normalComponents_of_properName {s : String} (h : ProperName s) :
    normalComponents ⟨s⟩ = [.name s] := by
  have hc : components ⟨s⟩ = [.name s] := components_text (c := .name s) h
  rw [normalComponents, hc]
  rfl

/-- One more component, written behind any path. -/
theorem components_join_text (base : Path) {c : Component} (h : c.Inner) :
    (base.join ⟨c.text⟩).components = base.components ++ [c] := by
  by_cases hb : base.text = ""
  · rw [join_of_text_eq_empty hb, components_eq_nil_iff.2 hb, components_text h, List.nil_append]
  · rw [components_join hb (isAbsolute_text h), added_text h]

theorem components_join_name {s : String} (h : ProperName s) (base : Path) :
    (base.join ⟨s⟩).components = base.components ++ [.name s] :=
  components_join_text base (c := .name s) h

theorem ofComponents_append (cs : List Component) (c : Component) :
    ofComponents (cs ++ [c]) = (ofComponents cs).join ⟨c.text⟩ := by
  rw [ofComponents, ofComponents, ofSegments, ofSegments, List.map_append, List.foldl_append]
  rfl

/-- The components of a settled stack can be written down and read again. -/
theorem components_ofComponents {stack : List Component} (h : Settled stack) :
    (ofComponents stack.reverse).components = stack.reverse := by
  induction stack with
  | nil => rfl
  | cons c below ih =>
    rw [List.reverse_cons, ofComponents_append]
    cases c with
    | root =>
      obtain rfl : below = [] := h
      rfl
    | current => exact h.elim
    | parent => rw [components_join_text _ (c := .parent) trivial, ih h.tail]
    | name s => rw [components_join_text _ (c := .name s) h.1, ih h.tail]

/-- The normal form shows nothing but its components. -/
theorem normalize_congr {p q : Path} (h : p.normalComponents = q.normalComponents) :
    p.normalize = q.normalize := by
  rw [normalize, normalize, h]

theorem normalize_of_eq_nil {p : Path} (h : p.normalComponents = []) : p.normalize = ⟨"."⟩ := by
  rw [normalize, h]

theorem normalize_of_ne_nil {p : Path} (h : p.normalComponents ≠ []) :
    p.normalize = ofComponents p.normalComponents := by
  unfold normalize
  split
  · next hp => exact absurd hp h
  · rfl

/-- **The normal form reads back** as what the pass has left. -/
theorem components_normalize {p : Path} (h : p.normalComponents ≠ []) :
    p.normalize.components = p.normalComponents := by
  have hs := components_ofComponents (settled_normalComponents p)
  rw [List.reverse_reverse] at hs
  rw [normalize_of_ne_nil h, hs]

theorem normalize_eq_dot_iff {p : Path} : p.normalize = ⟨"."⟩ ↔ p.normalComponents = [] := by
  refine ⟨fun h => ?_, normalize_of_eq_nil⟩
  cases hp : p.normalComponents with
  | nil => rfl
  | cons c cs =>
    have hs := settled_normalComponents p
    rw [← components_normalize (hp ▸ List.cons_ne_nil c cs), h] at hs
    exact hs.elim

theorem isAbsolute_normalize (p : Path) : p.normalize.isAbsolute = p.isAbsolute := by
  rw [Bool.eq_iff_iff, ← root_mem_normalComponents_iff (p := p)]
  by_cases hp : p.normalComponents = []
  · rw [normalize_of_eq_nil hp, hp]
    exact ⟨fun h => absurd h (by decide), fun h => absurd h List.not_mem_nil⟩
  · rw [isAbsolute_iff_head?, components_normalize hp, ← List.getLast?_reverse]
    refine ⟨fun h => List.mem_reverse.1 (List.mem_of_getLast? h), fun h => ?_⟩
    exact (settled_normalComponents p).getLast?_of_root_mem (List.mem_reverse.2 h)

/-! ## Joined paths -/

/-- Normalizing a joined path goes on where the first path ended. -/
theorem normalComponents_join (base : Path) {add : Path} (ha : add.isAbsolute = false) :
    (base.join add).normalComponents
      = (add.components.foldl push base.normalComponents.reverse).reverse := by
  by_cases hb : base.text = ""
  · rw [join_of_text_eq_empty hb, normalComponents, normalComponents, components_eq_nil_iff.2 hb]
    rfl
  · rw [normalComponents, components_join hb ha, List.foldl_append, normalComponents,
      List.reverse_reverse, foldl_push_components ha]

/-- Behind directories with one normal form, a path has one normal form. -/
theorem normalComponents_join_congr {p q : Path} (h : p.normalComponents = q.normalComponents)
    (add : Path) : (p.join add).normalComponents = (q.join add).normalComponents := by
  cases ha : add.isAbsolute with
  | true => rw [join_of_isAbsolute ha, join_of_isAbsolute ha]
  | false => rw [normalComponents_join p ha, normalComponents_join q ha, h]

/-- A component that leaves only names does not look below. -/
theorem push_append {stack : List Component} {c : Component}
    (h : ∀ b ∈ push stack c, b.isName = true) (below : List Component) :
    push (stack ++ below) c = push stack c ++ below := by
  cases c with
  | current => rfl
  | name s => cases stack <;> rfl
  | root =>
    have hroot : push stack .root = .root :: stack := by cases stack <;> rfl
    exact absurd (h .root (hroot ▸ List.mem_cons_self)) Bool.false_ne_true
  | parent =>
    cases stack with
    | nil => exact absurd (h .parent List.mem_cons_self) Bool.false_ne_true
    | cons top stack =>
      cases top with
      | name s => rfl
      | parent => exact absurd (h .parent List.mem_cons_self) Bool.false_ne_true
      | root => exact absurd (h .root List.mem_cons_self) Bool.false_ne_true
      | current => exact absurd (h .parent List.mem_cons_self) Bool.false_ne_true

/-- Components that leave only names never look below. -/
theorem foldl_push_append {cs stack : List Component}
    (h : ∀ c ∈ cs.foldl push stack, c.isName = true) (below : List Component) :
    cs.foldl push (stack ++ below) = cs.foldl push stack ++ below := by
  induction cs generalizing stack with
  | nil => rfl
  | cons c cs ih =>
    have hnames : ∀ b ∈ push stack c, b.isName = true := by
      intro b hb
      cases hn : b.isName with
      | true => rfl
      | false =>
        have hmem : b ∈ cs.foldl push (push stack c) := mem_foldl_push hb hn
        rw [← hn]
        exact h b hmem
    rw [List.foldl_cons, List.foldl_cons, push_append hnames]
    exact ih h

/-- Components that leave anything else take away a name that was on the stack before, and
what they do from there on is done to what was below it. -/
theorem exists_foldl_push_climb {cs stack : List Component}
    (hstack : ∀ c ∈ stack, c.isName = true) (hcs : ∀ c ∈ cs, c.Inner) {b : Component}
    (hb : b ∈ cs.foldl push stack) (hn : b.isName = false) :
    ∃ rest, rest <:+ cs ∧ ∀ s below,
      cs.foldl push (stack ++ .name s :: below) = rest.foldl push below := by
  induction cs generalizing stack with
  | nil =>
    rw [hstack b hb] at hn
    cases hn
  | cons c cs ih =>
    -- as long as there are names on top, the ones below are not touched
    have hstep (h : ∀ b ∈ push stack c, b.isName = true) :
        ∃ rest, rest <:+ c :: cs ∧ ∀ s below,
          (c :: cs).foldl push (stack ++ .name s :: below) = rest.foldl push below := by
      obtain ⟨rest, hsuffix, heq⟩ := ih h (fun b hb => hcs b (List.mem_cons_of_mem c hb)) hb
      refine ⟨rest, hsuffix.trans (List.suffix_cons c cs), fun s below => ?_⟩
      rw [List.foldl_cons, push_append h]
      exact heq s below
    cases c with
    | name s =>
      refine hstep fun b hb => ?_
      rcases mem_of_mem_push hb with hb | rfl
      · exact hstack b hb
      · rfl
    | parent =>
      cases stack with
      | nil => exact ⟨cs, List.suffix_cons .parent cs, fun s below => rfl⟩
      | cons top stack =>
        cases top with
        | name s => exact hstep fun b hb => hstack b (List.mem_cons_of_mem _ hb)
        | parent => cases hstack .parent List.mem_cons_self
        | root => cases hstack .root List.mem_cons_self
        | current => cases hstack .current List.mem_cons_self
    | root => exact (hcs .root List.mem_cons_self).elim
    | current => exact (hcs .current List.mem_cons_self).elim

/-- A path of which only names are left is not absolute. -/
theorem isAbsolute_of_names {p : Path} (h : ∀ c ∈ p.normalComponents, c.isName = true) :
    p.isAbsolute = false := by
  cases ha : p.isAbsolute with
  | false => rfl
  | true => cases h .root (root_mem_normalComponents_iff.2 ha)

/-- Behind any path, a path of which only names are left keeps all components of both. -/
theorem normalComponents_join_of_names (base : Path) {add : Path}
    (h : ∀ c ∈ add.normalComponents, c.isName = true) :
    (base.join add).normalComponents = base.normalComponents ++ add.normalComponents := by
  have hnames : ∀ c ∈ add.components.foldl push [], c.isName = true :=
    fun c hc => h c (List.mem_reverse.2 hc)
  have hpush := foldl_push_append hnames base.normalComponents.reverse
  rw [List.nil_append] at hpush
  rw [normalComponents_join base (isAbsolute_of_names h), hpush, List.reverse_append,
    List.reverse_reverse, ← normalComponents]

/-! ## Suffixes -/

theorem withSuffix_join {s e : String} (hs : s ≠ "") (ha : isAbsolute ⟨s⟩ = false)
    (base : Path) : (base.join ⟨s⟩).withSuffix e = base.join ⟨s ++ e⟩ := by
  have he : isAbsolute ⟨s ++ e⟩ = false := by
    rw [← ha, Bool.eq_iff_iff, isAbsolute_iff, isAbsolute_iff, String.toList_append]
    rcases hc : s.toList with _ | ⟨c, cs⟩
    · exact absurd (String.toList_eq_nil_iff.1 hc) hs
    · rfl
  rw [join, join, ha, he, if_neg Bool.false_ne_true, if_neg Bool.false_ne_true]
  split <;> simp only [withSuffix, String.append_assoc]

/-- A suffix becomes part of the last name of a normal form. -/
theorem components_withSuffix_normalize {p : Path} {init : List Component} {s e : String}
    (h : p.normalComponents = init ++ [.name s]) (he : ProperName (s ++ e)) :
    (p.normalize.withSuffix e).components = init ++ [.name (s ++ e)] := by
  have hs := settled_normalComponents p
  rw [h, List.reverse_append, List.reverse_singleton, List.singleton_append] at hs
  have hinit := components_ofComponents hs.tail
  rw [List.reverse_reverse] at hinit
  have hp : p.normalComponents ≠ [] := by rw [h]; simp
  rw [normalize_of_ne_nil hp, h, ofComponents_append, Component.text,
    withSuffix_join hs.1.ne_empty (isAbsolute_of_properName hs.1), components_join_name he, hinit]

end Path

end ModuleLookup
