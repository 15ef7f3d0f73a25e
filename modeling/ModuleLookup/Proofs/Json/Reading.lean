import ModuleLookup.Json.Record

/-!
# Reading and skipping

A record is read by readers for its fields, and what it does not know is skipped. The two go
over a value in different ways: a reader decodes strings and puts surrogates together, and the
one that skips looks at each escape alone. Still they agree on where the value ends, so the
fields of a record stand where they would be found by skipping everything.

* `Ends` — a reading succeeds and leaves a text.
* `Reader.TakesValue` — a reader that succeeds takes one value, as far as skipping it would go;
  `takesValue_texts` and `TakesValue.optional` are for the readers of settings.
* `Schema.members_eq_ok`, `Schema.positional_eq_ok` — what happens at one member of an object
  and at one element of a list that are read as a record.
-/

namespace ModuleLookup

/-- What a sequence of two readings gives. -/
theorem bind_eq_ok_iff {ε α β : Type} {x : Except ε α} {f : α → Except ε β} {b : β} :
    x >>= f = .ok b ↔ ∃ a, x = .ok a ∧ f a = .ok b := by
  cases x with
  | error e => exact ⟨fun h => (nomatch h), fun ⟨_, h, _⟩ => (nomatch h)⟩
  | ok a => exact ⟨fun h => ⟨a, rfl, h⟩, fun ⟨_, h, hf⟩ => Except.ok.inj h ▸ hf⟩

namespace Json

variable {α β : Type} {s t : List Char}

/-- A reading succeeds and leaves a text. -/
def Ends (x : Except Fault (Read α s)) (t : List Char) : Prop :=
  ∃ r, x = .ok r ∧ r.rest = t

@[simp] theorem ends_ok_iff {r : Read α s} : Ends (.ok r) t ↔ r.rest = t :=
  ⟨fun ⟨_, h, ht⟩ => Except.ok.inj h ▸ ht, fun h => ⟨r, rfl, h⟩⟩

@[simp] theorem ends_pure_iff {r : Read α s} :
    Ends (pure r : Except Fault (Read α s)) t ↔ r.rest = t :=
  ends_ok_iff

@[simp] theorem not_ends_error {f : Fault} : ¬Ends (.error f : Except Fault (Read α s)) t :=
  fun ⟨_, h, _⟩ => nomatch h

@[simp] theorem not_ends_throw {f : Fault} : ¬Ends (throw f : Except Fault (Read α s)) t :=
  not_ends_error

@[simp] theorem ends_bind_iff {x : Except Fault β} {f : β → Except Fault (Read α s)} :
    Ends (x >>= f) t ↔ ∃ b, x = .ok b ∧ Ends (f b) t := by
  cases x with
  | error e => exact ⟨fun ⟨_, h, _⟩ => (nomatch h), fun ⟨_, h, _⟩ => (nomatch h)⟩
  | ok b => exact ⟨fun h => ⟨b, rfl, h⟩, fun ⟨_, h, hf⟩ => Except.ok.inj h ▸ hf⟩

section Bind

variable {s' : List Char} {x : Except Fault (Read α s)} {f : Read α s → Read β s'}

/-- A reading that is put behind others, or gets another value, ends where it ended. -/
theorem Ends.bind_pure (h : Ends x t) (hf : ∀ r, (f r).rest = r.rest) :
    Ends (x >>= fun r => pure (f r)) t := by
  obtain ⟨r, hr, rfl⟩ := h
  exact ends_bind_iff.2 ⟨r, hr, ends_pure_iff.2 (hf r)⟩

theorem Ends.of_bind_pure (h : Ends (x >>= fun r => pure (f r)) t)
    (hf : ∀ r, (f r).rest = r.rest) : Ends x t := by
  obtain ⟨r, hr, h⟩ := ends_bind_iff.1 h
  exact ⟨r, hr, (hf r).symm.trans (ends_pure_iff.1 h)⟩

end Bind

/-! ## Strings -/

section StringWith

variable {esc : (s : List Char) → Except Fault (Read Char s)} {control : Char → List Char → Fault}

theorem ends_stringWith_quote : Ends (stringWith esc control ('\x22' :: s)) t ↔ s = t := by
  rw [stringWith, if_pos rfl, ends_ok_iff]
  rfl

theorem ends_stringWith_escape :
    Ends (stringWith esc control ('\\' :: s)) t
      ↔ ∃ e, esc s = .ok e ∧ Ends (stringWith esc control e.rest) t := by
  rw [stringWith, if_neg (by decide), if_pos rfl, ends_bind_iff]
  simp only [ends_bind_iff, ends_pure_iff]
  rfl

theorem ends_stringWith_char {c : Char} (hquote : c ≠ '\x22') (hescape : c ≠ '\\')
    (hcontrol : ¬c.toNat < 32) :
    Ends (stringWith esc control (c :: s)) t ↔ Ends (stringWith esc control s) t := by
  rw [stringWith, if_neg hquote, if_neg hescape, if_neg hcontrol, ends_bind_iff]
  simp only [ends_pure_iff]
  rfl

end StringWith

/-- The characters of a string that is skipped. -/
abbrev skippedString (s : List Char) : Except Fault (Read (List Char) s) :=
  stringWith skippedEscape (fun c s => .here .controlCharacter (c :: s)) s

theorem skippedEscape_unicode (r : Read Nat s) (h : hexFour s = .ok r) :
    skippedEscape ('u' :: s) = .ok (.behind 'u' (r.map fun _ => 'u')) := by
  rw [skippedEscape, if_pos rfl, h]
  rfl

/-- The second unit of a pair is an escape of its own. -/
theorem ends_skippedString_of_trailingUnit {u : Read Nat s} (h : trailingUnit s = .ok u)
    (hu : Ends (skippedString u.rest) t) : Ends (skippedString s) t := by
  unfold trailingUnit at h
  split at h
  case h_3 s =>
    obtain ⟨r, hr, h⟩ := bind_eq_ok_iff.1 h
    split at h
    · cases h
      exact ends_stringWith_escape.2 ⟨_, skippedEscape_unicode r hr, hu⟩
    · cases h
  all_goals cases h

/-- An escape may be skipped: behind it, or behind the first of its two units, a string goes on
that ends in the same place. -/
theorem exists_skippedEscape_of_escape {e : Read Char s} (h : escape s = .ok e)
    (he : Ends (skippedString e.rest) t) :
    ∃ m, skippedEscape s = .ok m ∧ Ends (skippedString m.rest) t := by
  unfold escape at h
  split at h
  · cases h
  · next c s =>
    split at h
    · next hc =>
      subst hc
      obtain ⟨v, hv, h⟩ := bind_eq_ok_iff.1 h
      obtain ⟨r, hr, hv⟩ := bind_eq_ok_iff.1 hv
      cases h
      refine ⟨_, skippedEscape_unicode r hr, ?_⟩
      split at hv
      · cases hv
      · split at hv
        · obtain ⟨u, hu, hv⟩ := bind_eq_ok_iff.1 hv
          obtain rfl := Except.ok.inj hv
          exact ends_skippedString_of_trailingUnit hu he
        · cases hv
          exact he
    · next hc =>
      split at h
      · next d hd =>
        cases h
        exact ⟨.behind c (.here c), by rw [skippedEscape, if_neg hc, if_pos (by rw [hd]; rfl)], he⟩
      · cases h

/-- **A string that can be read can be skipped**, to the same place. -/
theorem ends_skipString_of_string (h : Ends (string s) t) : Ends (skipString s) t := by
  have hskipped : Ends (skippedString s) t := by
    rw [string] at h
    revert h
    induction s using stringWith.induct with
    | case1 => exact fun ⟨_, h, _⟩ => by rw [stringWith.eq_def] at h; cases h
    | case2 s =>
      rw [ends_stringWith_quote, ends_stringWith_quote]
      exact id
    | case3 s hne ih =>
      rw [ends_stringWith_escape, ends_stringWith_escape]
      rintro ⟨e, he, h⟩
      exact exists_skippedEscape_of_escape he (ih e h)
    | case4 c s hquote hescape hcontrol =>
      rintro ⟨_, h, _⟩
      rw [stringWith, if_neg hquote, if_neg hescape, if_pos hcontrol] at h
      cases h
    | case5 c s hquote hescape hcontrol ih =>
      rw [ends_stringWith_char hquote hescape hcontrol,
        ends_stringWith_char hquote hescape hcontrol]
      exact ih
  exact hskipped.bind_pure fun _ => rfl

/-! ## Readers -/

/-- A reader that succeeds takes one value: it ends where skipping ends. -/
def Reader.TakesValue (read : Reader α) : Prop :=
  ∀ c cs t, Ends (read c cs) t → Ends (skipValue c cs) t

theorem skipValue_of_scalar {c : Char} (hlist : c ≠ '[') (hobject : c ≠ '\x7b')
    (cs : List Char) : skipValue c cs = skipScalar c cs := by
  rw [skipValue, if_neg hlist, if_neg hobject]

theorem takesValue_textOf (expected : String) : (textOf expected).TakesValue := by
  intro c cs t h
  unfold textOf at h
  split at h
  · next hc =>
    subst hc
    rw [skipValue_of_scalar (by decide) (by decide)]
    exact ends_skipString_of_string (h.of_bind_pure fun _ => rfl)
  · exact absurd h not_ends_throw

/-- A value that may be `null` is one value in any case. -/
theorem Reader.TakesValue.optional {read : Reader α} (h : read.TakesValue) :
    (optional read).TakesValue := by
  intro c cs t ht
  unfold Json.optional at ht
  split at ht
  · next hc =>
    subst hc
    rw [skipValue_of_scalar (by decide) (by decide)]
    exact ht.of_bind_pure fun _ => rfl
  · exact h c cs t (ht.of_bind_pure fun _ => rfl)

/-! ## Lists -/

theorem ahead_of_nextElement_done {closing : Read Unit s}
    (h : nextElement s = .ok (.done closing)) :
    ∃ d, ahead s = some d ∧ d.char = ']' ∧ d.rest = closing.rest := by
  unfold nextElement at h
  split at h
  · cases h
  · next d hd =>
    split at h
    · next hc =>
      cases h
      exact ⟨d, hd, hc, rfl⟩
    · split at h
      · split at h
        · cases h
        · split at h <;> cases h
      · cases h

theorem ahead_of_nextElement_more {e : Start s} (h : nextElement s = .ok (.more e)) :
    ∃ comma f, ahead s = some comma ∧ comma.char = ',' ∧ ahead comma.rest = some f ∧
      e = comma.next f := by
  unfold nextElement at h
  split at h
  · cases h
  · next d hd =>
    split at h
    · cases h
    · split at h
      · next hc =>
        split at h
        · cases h
        · next f hf =>
          split at h
          · cases h
          · cases h
            exact ⟨d, f, hd, hc, hf, rfl⟩
      · cases h

theorem ahead_of_firstElement_done {closing : Read Unit s}
    (h : firstElement s = .ok (.done closing)) :
    ∃ d, ahead s = some d ∧ d.char = ']' ∧ d.rest = closing.rest := by
  unfold firstElement at h
  split at h
  · cases h
  · next d hd =>
    split at h
    · next hc =>
      cases h
      exact ⟨d, hd, hc, rfl⟩
    · cases h

theorem ahead_of_firstElement_more {d : Start s} (h : firstElement s = .ok (.more d)) :
    ahead s = some d ∧ d.char ≠ ']' := by
  unfold firstElement at h
  split at h
  · cases h
  · next c hc =>
    split at h
    · cases h
    · next hne =>
      cases h
      exact ⟨hc, hne⟩

/-- Elements that are read are skipped one by one. -/
theorem ends_skipElements_of_items {read : Reader α} (hread : read.TakesValue) {c : Char}
    {cs : List Char} (h : Ends (items read c cs) t) : Ends (skipElements c cs) t := by
  revert h
  induction c, cs using items.induct (α := α) with
  | case1 c cs ih =>
    intro h
    rw [items, ends_bind_iff] at h
    obtain ⟨v, hv, h⟩ := h
    obtain ⟨n, hn, h⟩ := ends_bind_iff.1 h
    obtain ⟨u, hu, hrest⟩ := hread c cs v.rest ⟨v, hv, rfl⟩
    rw [skipElements, ends_bind_iff]
    refine ⟨u, hu, ?_⟩
    obtain ⟨uval, urest, ule⟩ := u
    subst hrest
    dsimp only
    cases n with
    | done closing =>
      obtain ⟨d, hd, hbracket, hrest⟩ := ahead_of_nextElement_done hn
      rw [hd]
      dsimp only
      rw [if_pos hbracket, ends_pure_iff]
      have ht := ends_pure_iff.1 h
      exact hrest.trans ht
    | more e =>
      obtain ⟨comma, f, hcomma, hc, hf, rfl⟩ := ahead_of_nextElement_more hn
      rw [hcomma]
      dsimp only
      rw [if_neg (by rw [hc]; decide), if_pos hc, hf]
      dsimp only at h
      exact (ih v (comma.next f) (h.of_bind_pure fun _ => rfl)).bind_pure fun _ => rfl

theorem Reader.TakesValue.listOf {read : Reader α} (hread : read.TakesValue) :
    (listOf read).TakesValue := by
  intro c cs t h
  unfold Json.listOf at h
  split at h
  · next hc =>
    subst hc
    obtain ⟨n, hn, h⟩ := ends_bind_iff.1 h
    rw [skipValue, if_pos rfl]
    cases n with
    | done closing =>
      obtain ⟨d, hd, hbracket, hrest⟩ := ahead_of_firstElement_done hn
      rw [hd]
      dsimp only
      rw [if_pos hbracket, ends_ok_iff]
      have ht := ends_pure_iff.1 h
      exact hrest.trans ht
    | more d =>
      obtain ⟨hd, hne⟩ := ahead_of_firstElement_more hn
      rw [hd]
      dsimp only
      rw [if_neg hne]
      dsimp only at h
      exact (ends_skipElements_of_items hread (h.of_bind_pure fun _ => rfl)).bind_pure
        fun _ => rfl
  · exact absurd h not_ends_throw

/-- **A list of texts that can be read can be skipped**, to the same place. -/
theorem takesValue_texts : texts.TakesValue :=
  (takesValue_textOf _).listOf

/-! ## Records -/

theorem nextElement_of_closeList {closing : Read Unit s} (h : Schema.closeList s = .ok closing) :
    nextElement s = .ok (.done closing) := by
  unfold Schema.closeList at h
  split at h
  · cases h
  · next d hd =>
    split at h
    · next hc =>
      cases h
      rw [nextElement, hd]
      exact if_pos hc
    · split at h
      · split at h <;> cases h
      · cases h

namespace Schema

variable {ρ : Type} {schema : Schema ρ}

/-- How a member of an object is read: its name is not that of a field before it, its value is
the change of its field, and either the object ends there, or the members behind it are read. -/
theorem members_eq_ok {seen : List String} {record : ρ} {cs : List Char} {r : Read ρ cs}
    (h : schema.members seen record cs = .ok r) :
    ∃ (name : Read (List Char) cs) (start : Start name.rest) (v : Read (ρ → ρ) start.rest),
      string cs = .ok name ∧ fieldValue name.rest = .ok start ∧
      change (schema.field? (String.ofList name.value)) start.char start.rest = .ok v ∧
      (∀ f ∈ schema.field? (String.ofList name.value), f.name ∉ seen) ∧
      ((∃ closing, nextField v.rest = .ok (.done closing) ∧ r.value = v.value record) ∨
        ∃ d r', nextField v.rest = .ok (.more d) ∧ r.value = r'.value ∧
          schema.members ((schema.field? (String.ofList name.value)).toList.map Field.name ++ seen)
            (v.value record) d.rest = .ok r') := by
  rw [members] at h
  obtain ⟨name, hname, h⟩ := bind_eq_ok_iff.1 h
  refine ⟨name, ?_⟩
  dsimp only at h
  generalize schema.field? (String.ofList name.value) = field at h ⊢
  have hseen : ∀ f ∈ field, f.name ∉ seen := by
    rintro f rfl hf
    rw [Option.map_some] at h
    dsimp only at h
    rw [if_pos hf] at h
    obtain ⟨_, h', _⟩ := bind_eq_ok_iff.1 h
    cases h'
  rcases field with _ | f
  case' some =>
    rw [Option.map_some] at h
    dsimp only at h
    rw [if_neg (hseen f rfl)] at h
  -- known or not, from here on both fields are read alike
  all_goals
    obtain ⟨start, hstart, h⟩ := bind_eq_ok_iff.1 h
    obtain ⟨v, hv, h⟩ := bind_eq_ok_iff.1 h
    obtain ⟨n, hn, h⟩ := bind_eq_ok_iff.1 h
    refine ⟨start, v, hname, hstart, hv, hseen, ?_⟩
    cases n with
    | done closing =>
      obtain ⟨whole, hwhole, h⟩ := bind_eq_ok_iff.1 h
      cases h
      refine .inl ⟨closing, hn, ?_⟩
      rw [finish] at hwhole
      split at hwhole <;> cases hwhole
      rfl
    | more d =>
      obtain ⟨r', hr', h⟩ := bind_eq_ok_iff.1 h
      cases h
      exact .inr ⟨d, r', hn, rfl, hr'⟩

/-- How an element of a list is read, when all of them have to be there: it is the change of the
next field, and the list ends behind the last field. -/
theorem positional_eq_ok (hall : schema.mayEndEarly = false) {f : Field ρ} {fs : List (Field ρ)}
    {count : Nat} {record : ρ} {c : Char} {cs : List Char} {r : Read ρ cs}
    (h : schema.positional (f :: fs) count record c cs = .ok r) :
    ∃ v, f.read c cs = .ok v ∧
      ((fs = [] ∧ ∃ closing, nextElement v.rest = .ok (.done closing) ∧
          r.value = v.value record) ∨
        ∃ d r', nextElement v.rest = .ok (.more d) ∧ r.value = r'.value ∧
          schema.positional fs (count + 1) (v.value record) d.char d.rest = .ok r') := by
  rw [positional] at h
  obtain ⟨v, hv, h⟩ := bind_eq_ok_iff.1 h
  refine ⟨v, hv, ?_⟩
  split at h
  · next hfs =>
    obtain ⟨closing, hclose, h⟩ := bind_eq_ok_iff.1 h
    cases h
    exact .inl ⟨List.isEmpty_iff.1 hfs, closing, nextElement_of_closeList hclose, rfl⟩
  · obtain ⟨n, hn, h⟩ := bind_eq_ok_iff.1 h
    cases n with
    | done closing =>
      obtain ⟨whole, hwhole, h⟩ := bind_eq_ok_iff.1 h
      rw [finishList, hall] at hwhole
      cases hwhole
    | more d =>
      obtain ⟨r', hr', h⟩ := bind_eq_ok_iff.1 h
      cases h
      exact .inr ⟨d, r', hn, rfl, hr'⟩

end Schema

/-- What a document holds is read from its first character on. -/
theorem document_eq_ok {read : Reader α} {text : String} {a : α}
    (h : document read text = .ok a) :
    ∃ (c : Start text.toList) (r : Read α c.rest),
      ahead text.toList = some c ∧ read c.char c.rest = .ok r ∧ r.value = a := by
  unfold document at h
  split at h
  · cases h
  · next c hc =>
    refine ⟨c, ?_⟩
    rcases hr : read c.char c.rest with fault | r
    · rw [hr] at h
      cases h
    · rw [hr] at h
      refine ⟨r, hc, rfl, ?_⟩
      dsimp only [bind, Except.bind] at h
      split at h
      · cases h
        rfl
      · cases h

end Json

end ModuleLookup
