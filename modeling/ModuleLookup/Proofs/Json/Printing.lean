import ModuleLookup.Json.Printer
import ModuleLookup.Json.Record

/-!
# Reading what was printed

What is printed for a value can be read as this value again. A string is read back character by
character: each of them stands for itself or is escaped, and an escape is read as the character
that it was written for. Lists and objects are printed with one element or member a line, and the
blanks between them do not matter to a reader.

* `Yields` — a reading gives a value and leaves a text.
* `yields_string` — a printed string is read back, whatever its characters are.
* `Reader.Takes` — a reader takes a text as a value, whatever follows; `takes_textOf`,
  `Reader.Takes.optional` and `takes_listOf` are for texts, for values that may be `null` and for
  lists.
* `Schema.takes_read`, `Schema.readText_prettyAt` — a printed object is read as a record, with the
  changes that its members make.
* `Value.infix_prettyAt` — a printed object holds its members as they are printed.
-/

namespace ModuleLookup.Json

variable {α β : Type} {s t : List Char}

/-- A reading gives a value and leaves a text. -/
def Yields (x : Except Fault (Read α s)) (a : α) (t : List Char) : Prop :=
  ∃ le, x = .ok ⟨a, t, le⟩

theorem Yields.bind {x : Except Fault β} {f : β → Except Fault (Read α s)} {a : α} {b : β}
    (hx : x = .ok b) (hf : Yields (f b) a t) : Yields (x >>= f) a t := by
  rw [hx]
  exact hf

/-! ## Strings -/

theorem yields_hexFour {a b c d : Char} {w x y z : Nat} (ha : hexValue? a = some w)
    (hb : hexValue? b = some x) (hc : hexValue? c = some y) (hd : hexValue? d = some z)
    (rest : List Char) :
    Yields (hexFour (a :: b :: c :: d :: rest)) (((w * 16 + x) * 16 + y) * 16 + z) rest := by
  have hsize : ¬byteLength ((a :: b :: c :: d :: rest).take 4) < 4 := by
    change ¬byteLength [a, b, c, d] < 4
    have ha := a.utf8Size_pos
    have hb := b.utf8Size_pos
    have hc := c.utf8Size_pos
    have hd := d.utf8Size_pos
    simp only [byteLength_cons, byteLength_nil]
    omega
  rw [hexFour, if_neg hsize, ha, hb, hc, hd]
  exact ⟨_, rfl⟩

theorem hexValue?_digitChar :
    ∀ n < 32, hexValue? (Nat.digitChar (n / 16)) = some (n / 16) ∧
      hexValue? (Nat.digitChar (n % 16)) = some (n % 16) := by
  decide

/-- A control character is read back from its code. -/
theorem yields_escape_code {c : Char} (h : c.toNat < 32) (rest : List Char) :
    Yields (escape ('u' :: '0' :: '0' :: Nat.digitChar (c.toNat / 16) ::
      Nat.digitChar (c.toNat % 16) :: rest)) c rest := by
  obtain ⟨hhigh, hlow⟩ := hexValue?_digitChar c.toNat h
  have hcode := yields_hexFour (show hexValue? '0' = some 0 from rfl)
    (show hexValue? '0' = some 0 from rfl) hhigh hlow rest
  rw [show ((0 * 16 + 0) * 16 + c.toNat / 16) * 16 + c.toNat % 16 = c.toNat by omega] at hcode
  obtain ⟨_, hcode⟩ := hcode
  have htrailing : ¬isTrailing c.toNat = true := by
    rw [isTrailing, Bool.and_eq_true, decide_eq_true_eq]
    omega
  have hleading : ¬isLeading c.toNat = true := by
    rw [isLeading, Bool.and_eq_true, decide_eq_true_eq]
    omega
  have hunicode : Yields (unicodeEscape ('0' :: '0' :: Nat.digitChar (c.toNat / 16) ::
      Nat.digitChar (c.toNat % 16) :: rest)) c rest := by
    rw [unicodeEscape]
    refine .bind hcode ?_
    dsimp only
    rw [if_neg htrailing, if_neg hleading, Read.map, Char.ofNat_toNat]
    exact ⟨_, rfl⟩
  obtain ⟨_, hunicode⟩ := hunicode
  rw [escape, if_pos rfl]
  exact .bind hunicode ⟨_, rfl⟩

theorem yields_escape_short {c d : Char} (hc : c ≠ 'u') (h : shortEscape? c = some d)
    (rest : List Char) : Yields (escape (c :: rest)) d rest := by
  rw [escape, if_neg hc, h]
  exact ⟨_, rfl⟩

/-- A character stands for itself, or it is escaped and its escape is read as the character. -/
theorem escapeChar_cases (c : Char) :
    (escapeChar c = [c] ∧ c ≠ '\x22' ∧ c ≠ '\\' ∧ ¬c.toNat < 32) ∨
      ∃ code, escapeChar c = '\\' :: code ∧ ∀ rest, Yields (escape (code ++ rest)) c rest := by
  have short (d : Char) (hd : d ≠ 'u') (h : shortEscape? d = some c) :
      ∃ code, ['\\', d] = '\\' :: code ∧ ∀ rest, Yields (escape (code ++ rest)) c rest :=
    ⟨[d], rfl, yields_escape_short hd h⟩
  -- the cases of `escapeChar`: seven short escapes, one by code, and the character itself
  fun_cases escapeChar c with
  | case1 h => exact .inr (short _ (by decide) (by rw [h]; rfl))
  | case2 _ h => exact .inr (short _ (by decide) (by rw [h]; rfl))
  | case3 _ _ h => exact .inr (short _ (by decide) (h ▸ rfl))
  | case4 _ _ _ h => exact .inr (short _ (by decide) (h ▸ rfl))
  | case5 _ _ _ _ h => exact .inr (short _ (by decide) (h ▸ rfl))
  | case6 _ _ _ _ _ h => exact .inr (short _ (by decide) (h ▸ rfl))
  | case7 _ _ _ _ _ _ h => exact .inr (short _ (by decide) (h ▸ rfl))
  | case8 _ _ _ _ _ _ _ h => exact .inr ⟨_, rfl, fun rest => yields_escape_code h rest⟩
  | case9 hquote hescape _ _ _ _ _ h => exact .inl ⟨rfl, hquote, hescape, h⟩

theorem yields_string_quote (t : List Char) : Yields (string ('\x22' :: t)) [] t := by
  rw [string, stringWith, if_pos rfl]
  exact ⟨_, rfl⟩

theorem Yields.string_char {c : Char} {cs : List Char} (h : Yields (string s) cs t)
    (hquote : c ≠ '\x22') (hescape : c ≠ '\\') (hcontrol : ¬c.toNat < 32) :
    Yields (string (c :: s)) (c :: cs) t := by
  obtain ⟨_, h⟩ := h
  rw [string, stringWith, if_neg hquote, if_neg hescape, if_neg hcontrol]
  exact .bind h ⟨_, rfl⟩

theorem Yields.string_escape {c : Char} {cs m : List Char} (h : Yields (string m) cs t)
    (hc : Yields (escape s) c m) : Yields (string ('\\' :: s)) (c :: cs) t := by
  obtain ⟨_, h⟩ := h
  obtain ⟨_, hc⟩ := hc
  rw [string, stringWith, if_neg (by decide), if_pos rfl]
  exact .bind hc (.bind h ⟨_, rfl⟩)

/-- **A printed string is read back**, behind its opening quote. -/
theorem yields_string (cs rest : List Char) :
    Yields (string (cs.flatMap escapeChar ++ '\x22' :: rest)) cs rest := by
  induction cs with
  | nil => exact yields_string_quote rest
  | cons c cs ih =>
    rw [List.flatMap_cons, List.append_assoc]
    obtain ⟨hc, hquote, hescape, hcontrol⟩ | ⟨code, hc, hread⟩ := escapeChar_cases c
    · rw [hc]
      exact ih.string_char hquote hescape hcontrol
    · rw [hc]
      exact ih.string_escape (hread _)

theorem toList_stringText (s : String) :
    (stringText s).toList = '\x22' :: (s.toList.flatMap escapeChar ++ ['\x22']) := by
  simp only [stringText, String.toList_append, String.toList_ofList]
  rfl

/-! ## Blanks -/

section Blanks

variable {gap : List Char} {c : Char}

/-- Only blanks. -/
def Blank (gap : List Char) : Prop :=
  ∀ b ∈ gap, isSpace b = true

theorem blank_nil : Blank [] :=
  fun _ hb => absurd hb List.not_mem_nil

theorem blank_space : Blank [' '] := by
  intro b hb
  rw [List.mem_singleton.1 hb]
  rfl

theorem exists_ahead (hgap : Blank gap) (hc : isSpace c = false) (s : List Char) :
    ∃ lt, ahead (gap ++ c :: s) = some ⟨c, s, lt⟩ := by
  have hskip : skipSpace (gap ++ c :: s) = c :: s := by
    rw [skipSpace, List.dropWhile_append_of_pos hgap, List.dropWhile_cons_of_neg (by simp [hc])]
  unfold ahead
  split
  · next h =>
    rw [hskip] at h
    cases h
  · next h =>
    rw [hskip] at h
    cases h
    exact ⟨lt_of_skipSpace_eq hskip, rfl⟩

theorem exists_ahead_cons (hc : isSpace c = false) (s : List Char) :
    ∃ lt, ahead (c :: s) = some ⟨c, s, lt⟩ :=
  exists_ahead blank_nil hc s

theorem exists_firstElement (hgap : Blank gap) (hc : isSpace c = false) (hclose : c ≠ ']')
    (s : List Char) : ∃ lt, firstElement (gap ++ c :: s) = .ok (.more ⟨c, s, lt⟩) := by
  obtain ⟨lt, h⟩ := exists_ahead hgap hc s
  refine ⟨lt, ?_⟩
  rw [firstElement, h]
  dsimp only
  rw [if_neg hclose]

theorem exists_firstElement_done (s : List Char) :
    ∃ le, firstElement (']' :: s) = .ok (.done ⟨(), s, le⟩) := by
  obtain ⟨lt, h⟩ := exists_ahead_cons (show isSpace ']' = false by decide) s
  refine ⟨Nat.le_of_lt lt, ?_⟩
  rw [firstElement, h]
  rfl

theorem exists_nextElement_done (hgap : Blank gap) (s : List Char) :
    ∃ le, nextElement (gap ++ ']' :: s) = .ok (.done ⟨(), s, le⟩) := by
  obtain ⟨lt, h⟩ := exists_ahead hgap (show isSpace ']' = false by decide) s
  refine ⟨Nat.le_of_lt lt, ?_⟩
  rw [nextElement, h]
  rfl

theorem exists_nextElement_more (hgap : Blank gap) (hc : isSpace c = false) (hclose : c ≠ ']')
    (s : List Char) : ∃ lt, nextElement (',' :: (gap ++ c :: s)) = .ok (.more ⟨c, s, lt⟩) := by
  obtain ⟨lt, h⟩ := exists_ahead_cons (show isSpace ',' = false by decide) (gap ++ c :: s)
  obtain ⟨lt', h'⟩ := exists_ahead hgap hc s
  refine ⟨Nat.lt_trans lt' lt, ?_⟩
  rw [nextElement, h]
  dsimp only
  rw [if_neg (by decide), if_pos rfl, h']
  dsimp only
  rw [if_neg hclose]
  rfl

theorem exists_firstField_done (s : List Char) :
    ∃ le, firstField ('\x7d' :: s) = .ok (.done ⟨(), s, le⟩) := by
  obtain ⟨lt, h⟩ := exists_ahead_cons (show isSpace '\x7d' = false by decide) s
  refine ⟨Nat.le_of_lt lt, ?_⟩
  rw [firstField, h]
  rfl

theorem exists_firstField (hgap : Blank gap) (s : List Char) :
    ∃ lt, firstField (gap ++ '\x22' :: s) = .ok (.more ⟨'\x22', s, lt⟩) := by
  obtain ⟨lt, h⟩ := exists_ahead hgap (show isSpace '\x22' = false by decide) s
  refine ⟨lt, ?_⟩
  rw [firstField, h]
  rfl

theorem exists_nextField_done (hgap : Blank gap) (s : List Char) :
    ∃ le, nextField (gap ++ '\x7d' :: s) = .ok (.done ⟨(), s, le⟩) := by
  obtain ⟨lt, h⟩ := exists_ahead hgap (show isSpace '\x7d' = false by decide) s
  refine ⟨Nat.le_of_lt lt, ?_⟩
  rw [nextField, h]
  rfl

theorem exists_nextField_more (hgap : Blank gap) (s : List Char) :
    ∃ lt, nextField (',' :: (gap ++ '\x22' :: s)) = .ok (.more ⟨'\x22', s, lt⟩) := by
  obtain ⟨lt, h⟩ :=
    exists_ahead_cons (show isSpace ',' = false by decide) (gap ++ '\x22' :: s)
  obtain ⟨lt', h'⟩ := exists_ahead hgap (show isSpace '\x22' = false by decide) s
  refine ⟨Nat.lt_trans lt' lt, ?_⟩
  rw [nextField, h]
  dsimp only
  rw [if_neg (by decide), if_pos rfl, h']
  rfl

theorem exists_fieldValue (hgap : Blank gap) (hc : isSpace c = false) (s : List Char) :
    ∃ lt, fieldValue (':' :: (gap ++ c :: s)) = .ok ⟨c, s, lt⟩ := by
  obtain ⟨lt, h⟩ := exists_ahead_cons (show isSpace ':' = false by decide) (gap ++ c :: s)
  obtain ⟨lt', h'⟩ := exists_ahead hgap hc s
  refine ⟨Nat.lt_trans lt' lt, ?_⟩
  rw [fieldValue, h]
  dsimp only
  rw [if_pos rfl, h']
  rfl

end Blanks

/-! ## Values -/

section Values

variable {read : Reader α} {text : List Char} {a : α}

/-- A reader takes a text as a value, whatever follows the text. It goes by the first character,
which is not blank and does not close a list. -/
def Reader.Takes (read : Reader α) (text : List Char) (a : α) : Prop :=
  ∃ c cs, text = c :: cs ∧ isSpace c = false ∧ c ≠ ']' ∧
    ∀ rest, Yields (read c (cs ++ rest)) a rest

theorem takes_textOf (expected s : String) : (textOf expected).Takes (stringText s).toList s := by
  refine ⟨'\x22', _, toList_stringText s, by decide, by decide, fun rest => ?_⟩
  rw [List.append_assoc, textOf, if_pos rfl]
  obtain ⟨_, h⟩ := yields_string s.toList rest
  exact .bind h ⟨_, by rw [Read.map, String.ofList_toList]; rfl⟩

/-- A value that does not look like `null` is one for a reader of values that may be `null`. -/
theorem Reader.Takes.optional (h : read.Takes text a) (hnull : text.head? ≠ some 'n') :
    (optional read).Takes text (some a) := by
  obtain ⟨c, cs, rfl, hc, hclose, hread⟩ := h
  refine ⟨c, cs, rfl, hc, hclose, fun rest => ?_⟩
  obtain ⟨_, hread⟩ := hread rest
  have hn : c ≠ 'n' := fun hn => hnull (congrArg some hn)
  rw [Json.optional, if_neg hn]
  exact .bind hread ⟨_, rfl⟩

theorem takes_optional_null (read : Reader α) : (optional read).Takes "null".toList none := by
  refine ⟨'n', ['u', 'l', 'l'], rfl, by decide, by decide, fun rest => ?_⟩
  rw [Json.optional, if_pos rfl]
  exact ⟨_, rfl⟩

/-- A document that is a single value is read as this value. -/
theorem Reader.Takes.document {text : String} (h : read.Takes text.toList a) :
    document read text = .ok a := by
  obtain ⟨c, cs, htext, hc, -, hread⟩ := h
  have hahead : ∃ lt, ahead text.toList = some ⟨c, cs, lt⟩ := by
    rw [htext]
    exact exists_ahead_cons hc cs
  obtain ⟨_, hahead⟩ := hahead
  have hread := hread []
  rw [List.append_nil] at hread
  obtain ⟨_, hread⟩ := hread
  rw [Json.document, hahead]
  dsimp only
  rw [hread]
  rfl

end Values

/-! ## Lists -/

/-- What is printed behind a part of a list or an object: the other parts, each behind a comma and
blanks, and the closing bracket behind other blanks. -/
def following (gap gap' : List Char) (closing : Char) : List (List Char) → List Char
  | [] => gap' ++ [closing]
  | part :: parts => ',' :: (gap ++ (part ++ following gap gap' closing parts))

/-- What is printed behind an opening bracket. Without any parts there are no blanks either. -/
def inside (gap gap' : List Char) (closing : Char) : List (List Char) → List Char
  | [] => [closing]
  | part :: parts => gap ++ (part ++ following gap gap' closing parts)

section Lists

variable {read : Reader α} {write : α → List Char} {gap gap' : List Char}

theorem takes_items (hgap : Blank gap) (hgap' : Blank gap') {a : α} {as : List α}
    (h : ∀ b ∈ a :: as, read.Takes (write b) b) :
    Reader.Takes (items read) (write a ++ following gap gap' ']' (as.map write)) (a :: as) := by
  induction as generalizing a with
  | nil =>
    obtain ⟨c, cs, ha, hc, hclose, hread⟩ := h a List.mem_cons_self
    refine ⟨c, cs ++ (gap' ++ [']']), by rw [ha]; rfl, hc, hclose, fun rest => ?_⟩
    rw [List.append_assoc, List.append_assoc, List.singleton_append]
    obtain ⟨_, hread⟩ := hread (gap' ++ ']' :: rest)
    obtain ⟨_, hnext⟩ := exists_nextElement_done hgap' rest
    rw [items]
    exact .bind hread (.bind hnext ⟨_, rfl⟩)
  | cons b bs ih =>
    obtain ⟨c, cs, ha, hc, hclose, hread⟩ := h a List.mem_cons_self
    -- a comma and blanks stand before the others, which start with `d`
    obtain ⟨d, ds, hb, hd, hdclose, hitems⟩ := ih fun b hb => h b (List.mem_cons_of_mem a hb)
    refine ⟨c, cs ++ (',' :: (gap ++ d :: ds)), ?_, hc, hclose, fun rest => ?_⟩
    · rw [ha, List.map_cons, following, hb, List.cons_append]
    · rw [List.append_assoc, List.cons_append, List.append_assoc, List.cons_append]
      obtain ⟨_, hread⟩ := hread (',' :: (gap ++ d :: (ds ++ rest)))
      obtain ⟨_, hnext⟩ := exists_nextElement_more hgap hd hdclose (ds ++ rest)
      obtain ⟨_, hitems⟩ := hitems rest
      rw [items]
      exact .bind hread (.bind hnext (.bind hitems ⟨_, rfl⟩))

/-- **A printed list is read back**, if its elements are. -/
theorem takes_listOf (hgap : Blank gap) (hgap' : Blank gap') {as : List α}
    (h : ∀ a ∈ as, read.Takes (write a) a) :
    (listOf read).Takes ('[' :: inside gap gap' ']' (as.map write)) as := by
  refine ⟨'[', _, rfl, by decide, by decide, fun rest => ?_⟩
  rw [listOf, if_pos rfl]
  cases as with
  | nil =>
    obtain ⟨_, hfirst⟩ := exists_firstElement_done rest
    exact .bind hfirst ⟨_, rfl⟩
  | cons a as =>
    obtain ⟨c, cs, htext, hc, hclose, hitems⟩ := takes_items hgap hgap' h
    rw [List.map_cons, inside, htext, List.append_assoc, List.cons_append]
    obtain ⟨_, hfirst⟩ := exists_firstElement hgap hc hclose (cs ++ rest)
    obtain ⟨_, hitems⟩ := hitems rest
    exact .bind hfirst (.bind hitems ⟨_, rfl⟩)

end Lists

/-! ## Records -/

/-- A printed member of an object: its name, the text of its value, and the change of a record
that it stands for. -/
structure Member (ρ : Type) where
  /-- its name -/
  name : String
  /-- the text of its value -/
  text : String
  /-- what it changes -/
  change : ρ → ρ

/-- A member as it is printed. -/
def Member.line {ρ : Type} (m : Member ρ) : String :=
  stringText m.name ++ ": " ++ m.text

/-- A printed member behind the quote that opens its name. -/
def Member.tail {ρ : Type} (m : Member ρ) : List Char :=
  m.name.toList.flatMap escapeChar ++ '\x22' :: ':' :: ' ' :: m.text.toList

theorem Member.toList_line {ρ : Type} (m : Member ρ) : m.line.toList = '\x22' :: m.tail := by
  rw [Member.line, String.toList_append, String.toList_append, toList_stringText]
  simp only [List.append_assoc, List.cons_append]
  rfl

namespace Schema

variable {ρ : Type} {schema : Schema ρ} {gap gap' : List Char}

/-- A member is known: there is a field of its name, which takes its text as its change. -/
def Knows (schema : Schema ρ) (m : Member ρ) : Prop :=
  ∃ f, schema.field? m.name = some f ∧ f.name = m.name ∧ f.read.Takes m.text.toList m.change

/-- Nothing is missing from an object with members of these names. -/
def Complete (schema : Schema ρ) (names : List String) : Prop :=
  ∀ f ∈ schema.fields, f.required = true → f.name ∈ names

theorem finish_of_complete {names : List String} (h : schema.Complete names) (record : ρ)
    (rest : List Char) : schema.finish names record rest = .ok record := by
  have hnone : (schema.fields.find? fun f => f.required && !names.contains f.name) = none := by
    rw [List.find?_eq_none]
    intro f hf hmissing
    obtain ⟨hrequired, hmissing⟩ := (Bool.and_eq_true_iff).1 hmissing
    rw [Bool.not_eq_true', List.contains_eq_mem, decide_eq_false_iff_not] at hmissing
    exact hmissing (h f hf hrequired)
  rw [finish, hnone]

/-- One printed member is read, and what is behind it decides on the rest. -/
theorem yields_member {m : Member ρ} {seen : List String} {record whole : ρ}
    {behind rest : List Char} (hknown : schema.Knows m) (hseen : m.name ∉ seen)
    (hnext : (∃ closing, nextField behind = .ok (.done closing) ∧ closing.rest = rest ∧
        schema.finish (m.name :: seen) (m.change record) rest = .ok whole) ∨
      ∃ d, nextField behind = .ok (.more d) ∧
        Yields (schema.members (m.name :: seen) (m.change record) d.rest) whole rest) :
    Yields (schema.members seen record (m.tail ++ behind)) whole rest := by
  obtain ⟨f, hfield, hname, c, cs, htext, hc, -, hread⟩ := hknown
  rw [Member.tail, htext, List.append_assoc]
  obtain ⟨_, hstring⟩ := yields_string m.name.toList (':' :: ' ' :: c :: (cs ++ behind))
  obtain ⟨_, hvalue⟩ := exists_fieldValue blank_space hc (cs ++ behind)
  obtain ⟨_, hread⟩ := hread behind
  rw [members]
  refine .bind hstring ?_
  dsimp only
  rw [String.ofList_toList, hfield, Option.map_some, hname]
  dsimp only
  rw [if_neg hseen]
  refine .bind hvalue (.bind hread ?_)
  rw [← hname] at hnext
  obtain ⟨closing, hn, rfl, hfinish⟩ | ⟨d, hn, hmembers⟩ := hnext
  · exact .bind hn (.bind hfinish ⟨_, rfl⟩)
  · obtain ⟨_, hmembers⟩ := hmembers
    exact .bind hn (.bind hmembers ⟨_, rfl⟩)

/-- Printed members are read one after the other, each with its change. -/
theorem yields_members (hgap : Blank gap) (hgap' : Blank gap') {m : Member ρ}
    {ms : List (Member ρ)} {seen : List String} {record : ρ}
    (hknown : ∀ k ∈ m :: ms, schema.Knows k)
    (hnodup : ((m :: ms).map Member.name ++ seen).Nodup)
    (hcomplete : schema.Complete ((m :: ms).map Member.name ++ seen)) (rest : List Char) :
    Yields (schema.members seen record
        (m.tail ++ (following gap gap' '\x7d' (ms.map (·.line.toList)) ++ rest)))
      ((m :: ms).foldl (fun record k => k.change record) record) rest := by
  induction ms generalizing m seen record with
  | nil =>
    rw [List.map_nil, following, List.append_assoc, List.singleton_append]
    obtain ⟨_, hnext⟩ := exists_nextField_done hgap' rest
    exact yields_member (hknown m List.mem_cons_self) (List.nodup_cons.1 hnodup).1
      (.inl ⟨_, hnext, rfl, finish_of_complete hcomplete _ _⟩)
  | cons k ks ih =>
    have hknown' : ∀ l ∈ k :: ks, schema.Knows l := fun l hl => hknown l (List.mem_cons_of_mem m hl)
    have hseen : m.name ∉ seen := fun h =>
      (List.nodup_cons.1 hnodup).1 (List.mem_append_right _ h)
    -- the other members come behind this one, which they have seen
    have hperm : ((m :: k :: ks).map Member.name ++ seen).Perm
        ((k :: ks).map Member.name ++ m.name :: seen) := List.perm_middle.symm
    have hcomplete' : schema.Complete ((k :: ks).map Member.name ++ m.name :: seen) :=
      fun f hf hrequired => hperm.mem_iff.1 (hcomplete f hf hrequired)
    rw [List.map_cons, following, k.toList_line, List.cons_append, List.append_assoc,
      List.cons_append, List.cons_append, List.append_assoc]
    obtain ⟨_, hnext⟩ := exists_nextField_more hgap
      (k.tail ++ (following gap gap' '\x7d' (ks.map (·.line.toList)) ++ rest))
    exact yields_member (hknown m List.mem_cons_self) hseen
      (.inr ⟨_, hnext, ih hknown' (hperm.nodup_iff.1 hnodup) hcomplete'⟩)

/-- **A printed object is read as a record**, with the changes of its members one after the other,
when all its members are known, none comes twice and none is missing. -/
theorem takes_read (hgap : Blank gap) (hgap' : Blank gap') {ms : List (Member ρ)}
    (hknown : ∀ m ∈ ms, schema.Knows m) (hnodup : (ms.map Member.name).Nodup)
    (hcomplete : schema.Complete (ms.map Member.name)) :
    schema.read.Takes ('\x7b' :: inside gap gap' '\x7d' (ms.map (·.line.toList)))
      (ms.foldl (fun record m => m.change record) schema.blank) := by
  refine ⟨'\x7b', _, rfl, by decide, by decide, fun rest => ?_⟩
  rw [Schema.read, if_pos rfl]
  cases ms with
  | nil =>
    obtain ⟨_, hfirst⟩ := exists_firstField_done rest
    exact .bind hfirst (.bind (finish_of_complete hcomplete _ _) ⟨_, rfl⟩)
  | cons m ms =>
    rw [← List.append_nil ((m :: ms).map Member.name)] at hnodup hcomplete
    obtain ⟨_, hmembers⟩ := yields_members hgap hgap' hknown hnodup hcomplete rest
    rw [List.map_cons, inside, m.toList_line, List.append_assoc, List.cons_append,
      List.cons_append, List.append_assoc]
    obtain ⟨_, hfirst⟩ := exists_firstField hgap
      (m.tail ++ (following gap gap' '\x7d' (ms.map (·.line.toList)) ++ rest))
    exact .bind hfirst (.bind hmembers ⟨_, rfl⟩)

end Schema

/-! ## Layout -/

/-- The end of a line, and the blanks in front of the next one. -/
def lineBreak (depth : Nat) : List Char :=
  '\n' :: List.replicate (2 * depth) ' '

theorem blank_lineBreak (depth : Nat) : Blank (lineBreak depth) := by
  intro b hb
  rcases List.mem_cons.1 hb with rfl | hb
  · rfl
  · rw [List.eq_of_mem_replicate hb]
    rfl

namespace Value

theorem prettyItems_eq_map (depth : Nat) (vs : List Value) :
    prettyItems depth vs = vs.map (prettyAt depth) := by
  induction vs with
  | nil => rfl
  | cons v vs ih => rw [prettyItems, ih, List.map_cons]

theorem prettyFields_eq_map (depth : Nat) (fields : List (String × Value)) :
    prettyFields depth fields
      = fields.map fun field => stringText field.1 ++ ": " ++ prettyAt depth field.2 := by
  induction fields with
  | nil => rfl
  | cons field fields ih => rw [prettyFields, ih, List.map_cons]

theorem toList_layOut_lines (depth : Nat) {closing : String} {c : Char}
    (hclosing : closing.toList = [c]) (line : String) (lines : List String) :
    (",\n".intercalate ((line :: lines).map
        (String.ofList (List.replicate (2 * (depth + 1)) ' ') ++ ·))
      ++ "\n" ++ String.ofList (List.replicate (2 * depth) ' ') ++ closing).toList
      = List.replicate (2 * (depth + 1)) ' ' ++ (line.toList
        ++ following (lineBreak (depth + 1)) (lineBreak depth) c (lines.map String.toList)) := by
  induction lines generalizing line with
  | nil =>
    rw [List.map_singleton, String.intercalate_singleton]
    simp only [String.toList_append, String.toList_ofList, hclosing, List.append_assoc]
    rfl
  | cons line' lines ih =>
    have ih := ih line'
    simp only [String.toList_append, String.toList_ofList, List.append_assoc] at ih
    rw [List.map_cons, List.map_cons, String.intercalate_cons_cons, ← List.map_cons]
    simp only [String.toList_append, String.toList_ofList, List.append_assoc]
    rw [ih]
    rfl

/-- Lines between brackets are the parts inside them, each on a line of its own. -/
theorem toList_layOut {opening closing : String} {c d : Char} (hopening : opening.toList = [c])
    (hclosing : closing.toList = [d]) (depth : Nat) (lines : List String) :
    (layOut opening closing depth lines).toList
      = c :: inside (lineBreak (depth + 1)) (lineBreak depth) d (lines.map String.toList) := by
  cases lines with
  | nil =>
    rw [layOut, List.isEmpty_nil, if_pos rfl, String.toList_append, hopening, hclosing]
    rfl
  | cons line lines =>
    rw [layOut, List.isEmpty_cons, if_neg Bool.false_ne_true]
    have hlines := toList_layOut_lines depth hclosing line lines
    simp only [String.toList_append, List.append_assoc, hopening] at hlines ⊢
    rw [hlines]
    rfl

end Value

/-! ## Parts of what is printed -/

theorem infix_append_following {gap gap' : List Char} {closing : Char} {part other : List Char}
    {parts : List (List Char)} (h : part ∈ other :: parts) :
    part <:+: other ++ following gap gap' closing parts := by
  induction parts generalizing other with
  | nil =>
    rw [List.mem_singleton.1 h]
    exact (List.prefix_append other _).isInfix
  | cons next parts ih =>
    rcases List.mem_cons.1 h with rfl | h
    · exact (List.prefix_append part _).isInfix
    · rw [following]
      -- the next part stands behind this one, a comma and blanks
      have hnext := (List.suffix_append gap (next ++ following gap gap' closing parts)).trans
        (List.suffix_cons ',' _)
      exact (ih h).trans (hnext.trans (List.suffix_append other _)).isInfix

theorem infix_inside {gap gap' : List Char} {closing : Char} {part : List Char}
    {parts : List (List Char)} (h : part ∈ parts) : part <:+: inside gap gap' closing parts := by
  cases parts with
  | nil => cases h
  | cons other parts =>
    exact (infix_append_following h).trans (List.suffix_append gap _).isInfix

/-- A printed object holds its members as they are printed one step deeper. -/
theorem Value.infix_prettyAt {fields : List (String × Value)} {name : String} {v : Value}
    (h : (name, v) ∈ fields) (depth : Nat) :
    (stringText name ++ ": " ++ v.prettyAt (depth + 1)).toList
      <:+: ((object fields).prettyAt depth).toList := by
  rw [prettyAt, prettyFields_eq_map, toList_layOut rfl rfl, List.map_map]
  refine .trans ?_ (List.suffix_cons _ _).isInfix
  exact infix_inside (List.mem_map.2 ⟨(name, v), h, rfl⟩)

/-! ## Reading it back -/

/-- A list of texts that was printed on some lines is read back. -/
theorem takes_texts (depth : Nat) (ss : List String) :
    texts.Takes ((Value.ofStrings ss).prettyAt depth).toList ss := by
  rw [Value.ofStrings, Value.prettyAt, Value.prettyItems_eq_map, List.map_map,
    Value.toList_layOut rfl rfl, List.map_map]
  exact takes_listOf (blank_lineBreak _) (blank_lineBreak _) fun s _ => takes_textOf _ s

/-- Texts that may be missing are read back, too; `null` stands for missing ones. -/
theorem takes_optional_texts (depth : Nat) (given? : Option (List String)) :
    (optional texts).Takes (((given?.map Value.ofStrings).getD .null).prettyAt depth).toList
      given? := by
  cases given? with
  | none => exact takes_optional_null texts
  | some ss =>
    refine (takes_texts depth ss).optional ?_
    rw [Value.ofStrings, Value.prettyAt,
      Value.toList_layOut (show "[".toList = ['['] from rfl) rfl, List.head?_cons]
    decide

/-- The value of a field, if its reader takes a text, is a change of the record. -/
theorem Reader.Takes.field {ρ : Type} {read : Reader α} {text : List Char} {a : α}
    (h : read.Takes text a) (name : String) (aliases : List String) (required : Bool)
    (set : α → ρ → ρ) :
    (Field.ofReader name aliases required read set).read.Takes text (set a) := by
  obtain ⟨c, cs, htext, hc, hclose, hread⟩ := h
  refine ⟨c, cs, htext, hc, hclose, fun rest => ?_⟩
  obtain ⟨_, hread⟩ := hread rest
  exact .bind hread ⟨_, rfl⟩

/-- **A printed object is read back** as the record that its members make. -/
theorem Schema.readText_prettyAt {ρ : Type} {schema : Schema ρ} {depth : Nat}
    {fields : List (String × Value)} (ms : List (Member ρ))
    (hms : ms.map (fun m => (m.name, m.text))
      = fields.map fun field => (field.1, field.2.prettyAt (depth + 1)))
    (hknown : ∀ m ∈ ms, schema.Knows m) (hnodup : (ms.map Member.name).Nodup)
    (hcomplete : schema.Complete (ms.map Member.name)) :
    schema.readText ((Value.object fields).prettyAt depth)
      = .ok (ms.foldl (fun record m => m.change record) schema.blank) := by
  have hlines : Value.prettyFields (depth + 1) fields = ms.map Member.line := by
    have := congrArg (List.map fun p : String × String => stringText p.1 ++ ": " ++ p.2) hms
    rw [List.map_map, List.map_map] at this
    rw [Value.prettyFields_eq_map]
    exact this.symm
  refine Reader.Takes.document ?_
  rw [Value.prettyAt, hlines, Value.toList_layOut rfl rfl, List.map_map]
  exact takes_read (blank_lineBreak _) (blank_lineBreak _) hknown hnodup hcomplete

end ModuleLookup.Json
