import ModuleLookup.Proofs.Source.RequireCall
import ModuleLookup.Proofs.Text.Bytes

/-!
# Texts behind a semicolon

A semicolon that stands in code ends every form that the machine may be inside of. What comes
behind it is read as if it stood alone, only further on in the text; and what comes before is
read as if the text ended there.

* `Token.isOpen` — tokens that would take more text; `EndsInCode` — a text that ends with none.
* `tokens_append_semicolon_iff` — such a text and another are cut apart at a semicolon.
* `Stage.step_semicolon` — no stage outlives a semicolon; `Stage.run_shift` — a run does not
  depend on where its lexemes stand.
* `references_append_semicolon` — the references of two texts with a semicolon in between.
-/

namespace ModuleLookup

/-! ## Texts that end in code -/

/-- Tokens that go on if there is more text: literals and block comments without their end, and
line comments. -/
def Token.isOpen : Token → Bool
  | comment ('/' :: '*' :: body) => !(['*', '/'].isSuffixOf body)
  | comment _ => true
  | literal _ _ closed => !closed
  | word _ | blank _ | mark _ => false

/-- A text that ends outside of comments and literals. -/
def EndsInCode (cs : List Char) : Prop :=
  ∀ t ∈ (tokens cs).getLast?, t.isOpen = false

instance (cs : List Char) : Decidable (EndsInCode cs) :=
  inferInstanceAs (Decidable (∀ t ∈ (tokens cs).getLast?, t.isOpen = false))

/-- A token that ends with the text also ends in front of a semicolon, unless it is open. -/
theorem Token.Cut.semicolon {t : Token} (h : t.Cut []) (hopen : t.isOpen = false)
    (ds : List Char) : t.Cut (';' :: ds) := by
  have hhead {p : Char → Prop} (hp : p ';') : ∀ c ∈ (';' :: ds).head?, p c := by
    rintro c ⟨⟩
    exact hp
  cases h with
  | line => cases hopen
  | block hbody => exact .block hbody
  | @openBlock body hbody =>
    -- a block comment that has ended has its end mark
    rw [isOpen, Bool.not_eq_false', List.isSuffixOf_iff_suffix] at hopen
    exact absurd hopen.isInfix hbody
  | closed hq hbody => exact .closed hq hbody
  | unclosed => cases hopen
  | unescaped => cases hopen
  | word hne hw => exact .word hne hw (hhead (by decide))
  | blank hb => exact .blank hb
  | mark hq hb hw => exact .mark hq hb hw fun _ => hhead (by decide)

/-- An open token would take the semicolon. -/
theorem Token.Cut.isOpen_eq_false {t : Token} {ds : List Char} (h : t.Cut (';' :: ds)) :
    t.isOpen = false := by
  cases h with
  | line _ hrest => exact absurd (hrest ';' rfl) (by decide)
  | @block body =>
    rw [isOpen, Bool.not_eq_false', List.isSuffixOf_iff_suffix]
    exact List.suffix_append body _
  | unclosed _ _ hrest => exact absurd (hrest ';' rfl).1 (by decide)
  | _ => rfl

/-- **Texts are cut apart at a semicolon** just when it stands in code. -/
theorem tokens_append_semicolon_iff {cs : List Char} :
    EndsInCode cs ↔ ∀ ds, tokens (cs ++ ';' :: ds) = tokens cs ++ .mark ';' :: tokens ds := by
  constructor
  · intro h ds
    have hmark : (Token.mark ';').Cut ds :=
      .mark (by decide) (by decide) (by decide) fun hslash => absurd hslash (by decide)
    refine tokens_eq_iff_lexed.2 ((tokens_eq_iff_lexed.1 rfl).append (fun t ht => ?_)
      (.cons hmark (tokens_eq_iff_lexed.1 rfl)))
    obtain ⟨front, hfront⟩ := List.getLast?_eq_some_iff.1 ht
    exact (cut_of_tokens_eq hfront).semicolon (h t ht) ds
  · intro h t ht
    obtain ⟨front, hfront⟩ := List.getLast?_eq_some_iff.1 ht
    have hcut := h []
    rw [hfront, List.append_assoc] at hcut
    exact (cut_of_tokens_eq hcut).isOpen_eq_false

/-! ## Further on in a text -/

/-- A place with more bytes and lines before it. -/
def Place.shift (bytes lines : Nat) (p : Place) : Place :=
  ⟨p.offset + bytes, p.line + UInt32.ofNat lines, p.afterDot⟩

/-- A lexeme with more bytes and lines before it. -/
def Lexeme.shift (bytes lines : Nat) (l : Lexeme) : Lexeme :=
  ⟨l.token, l.place.shift bytes lines⟩

/-- A reference with more bytes and lines before it. Its line is a number of 32 bits. -/
def Reference.shift (bytes lines : Nat) (r : Reference) : Reference :=
  ⟨r.raw, r.kind, r.line + UInt32.ofNat lines, r.start + bytes, r.stop + bytes⟩

/-- A stage remembers a place only in a reference that waits for the end of its call. -/
def Stage.shift (bytes lines : Nat) : Stage → Stage
  | closing found => closing (found.shift bytes lines)
  | s => s

section Shift

variable (bytes lines : Nat)

theorem Place.after_shift (p : Place) (t : Token) :
    (p.shift bytes lines).after t = (p.after t).shift bytes lines := by
  have hline : p.line + UInt32.ofNat lines + UInt32.ofNat (t.text.count '\n')
      = p.line + UInt32.ofNat (t.text.count '\n') + UInt32.ofNat lines := by
    rw [UInt32.add_assoc, UInt32.add_comm (UInt32.ofNat lines), ← UInt32.add_assoc]
  simp only [shift, after, Nat.add_right_comm, hline]

theorem lexemes_shift (p : Place) (ts : List Token) :
    lexemes (p.shift bytes lines) ts = (lexemes p ts).map (Lexeme.shift bytes lines) := by
  induction ts generalizing p with
  | nil => rfl
  | cons t ts ih =>
    rw [lexemes, lexemes, List.map_cons, Place.after_shift, ih]
    rfl

namespace Stage

theorem shift_of_ne_closing {s : Stage} (h : ∀ r, s ≠ closing r) : s.shift bytes lines = s := by
  cases s with
  | closing r => exact absurd rfl (h r)
  | _ => rfl

theorem enter_shift (l : Lexeme) :
    enter (l.shift bytes lines) = (enter l).shift bytes lines :=
  (shift_of_ne_closing bytes lines (enter_ne_closing l)).symm

theorem inClause_shift (kind : Reference.Kind) (n : Nat) (l : Lexeme) :
    inClause kind n (l.shift bytes lines) = (inClause kind n l).shift bytes lines :=
  (shift_of_ne_closing bytes lines (inClause_ne_closing kind n l)).symm

theorem refer_shift (kind : Reference.Kind) (l : Lexeme) (body : List Char) :
    refer kind (l.shift bytes lines) body = (refer kind l body).shift bytes lines := by
  simp only [refer, Reference.shift, Lexeme.shift, Place.shift, Reference.mk.injEq, true_and]
  omega

/-- **One lexeme** does the same wherever it stands. -/
theorem step_shift (s : Stage) (l : Lexeme) :
    (s.shift bytes lines).step (l.shift bytes lines)
      = ((s.step l).1.shift bytes lines, (s.step l).2.map (Reference.shift bytes lines)) := by
  have henter := enter_shift bytes lines l
  have htrivia : (l.shift bytes lines).isTrivia = l.isTrivia := rfl
  have htoken : (l.shift bytes lines).token = l.token := rfl
  cases s with
  | code => exact congrArg (·, none) henter
  | called =>
    simp only [Stage.shift, step, htrivia, htoken, henter]
    split
    · rfl
    · split <;> rfl
  | argument kind =>
    simp only [Stage.shift, step, htrivia, htoken, henter, refer_shift]
    split
    · rfl
    · split <;> rfl
  | closing found =>
    simp only [Stage.shift, step, htrivia, htoken, henter]
    split
    · rfl
    · split <;> rfl
  | imported =>
    simp only [Stage.shift, step, htrivia, htoken, inClause_shift, refer_shift]
    split
    · rfl
    · split
      · rfl
      · split <;> rfl
  | clause kind n => exact congrArg (·, none) (inClause_shift bytes lines kind n l)
  | sought kind n =>
    have hsize : (l.shift bytes lines).size = l.size := rfl
    simp only [Stage.shift, step, htrivia, htoken, hsize, inClause_shift, refer_shift]
    split
    · rfl
    · split <;> rfl

/-- **A run** does the same wherever its lexemes stand. -/
theorem run_shift (s : Stage) (ls : List Lexeme) :
    (s.shift bytes lines).run (ls.map (Lexeme.shift bytes lines))
      = (s.run ls).map (Reference.shift bytes lines) := by
  induction ls generalizing s with
  | nil => rfl
  | cons l ls ih =>
    rw [List.map_cons, run, run, step_shift, ih, List.map_append]
    cases (s.step l).2 <;> rfl

end Stage

end Shift

/-! ## Behind a semicolon -/

/-- No stage outlives a semicolon. -/
theorem Stage.step_semicolon (s : Stage) (p : Place) : s.step ⟨.mark ';', p⟩ = (code, none) := by
  have henter : enter ⟨.mark ';', p⟩ = code := enter_of_not_word (by simp)
  have hclause (kind : Reference.Kind) (n : Nat) : inClause kind n ⟨.mark ';', p⟩ = code := by
    rw [inClause_eq, if_pos (.inr rfl), henter]
  cases s with
  | code => rw [step, henter]
  | called => exact congrArg (·, none) henter
  | argument kind => exact congrArg (·, none) henter
  | closing found => exact congrArg (·, none) henter
  | imported => exact congrArg (·, none) (hclause .importFrom clauseLimit)
  | clause kind n => rw [step, hclause]
  | sought kind n => exact congrArg (·, none) (hclause kind n)

/-- **A semicolon separates statements.** Behind a text that ends outside of comments and
literals, and a semicolon, the references of another text are those that it has alone, with
their places further on; and those of the first text are the ones that it has alone. -/
theorem references_append_semicolon (a b : String) (h : EndsInCode a.toList) :
    references (a ++ ";" ++ b) = references a
      ++ (references b).map (Reference.shift (a.utf8ByteSize + 1) (a.toList.count '\n')) := by
  have htext : (a ++ ";" ++ b).toList = a.toList ++ ';' :: b.toList := by
    rw [String.toList_append, String.toList_append, List.append_assoc]
    rfl
  obtain ⟨hoffset, hline⟩ := afterAll_eq Place.start (tokens a.toList)
  rw [tokens_text, byteLength_toList] at hoffset
  rw [tokens_text] at hline
  have hplace : (Place.start.afterAll (tokens a.toList)).after (.mark ';')
      = Place.start.shift (a.utf8ByteSize + 1) (a.toList.count '\n') := by
    have hsize : (Token.mark ';').size = 1 := by decide
    have hlines : UInt32.ofNat ((Token.mark ';').text.count '\n') = 0 := by decide
    rw [Place.after, hoffset, hline, hsize, hlines, Nat.add_assoc, UInt32.add_zero]
    rfl
  rw [references, htext, tokens_append_semicolon_iff.1 h, lexemes_append, Stage.run_append, lexemes,
    Stage.run, Stage.step_semicolon, hplace, lexemes_shift]
  exact congrArg (_ ++ ·) (Stage.run_shift _ _ Stage.code _)

/-- A clause that has come to its `from` does not reach over the semicolon. -/
theorem references_append_semicolon_unfinished :
    EndsInCode "import x\nfrom".toList ∧
      references ("import x\nfrom" ++ ";" ++ "'y', require('z')")
        = [⟨"z", .require, 2, 28, 29⟩] := by
  have h : EndsInCode "import x\nfrom".toList := by decide +kernel
  refine ⟨h, ?_⟩
  rw [references_append_semicolon _ _ h]
  decide +kernel

end ModuleLookup
