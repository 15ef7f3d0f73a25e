import ModuleLookup.Proofs.Source.Origin

/-!
# Statements that refer to modules

Statements in the five forms in which a module is referred to, with blanks and comments
wherever they may stand. What is written carries the proof that it is well formed, and is cut
into the tokens one expects, whatever comes behind it.

* `Spacer`, `Quotation`, `Names`, `Statement` — what is written, each with its `text`;
  `statementsText` — statements one after the other.
* `Statement.reference`, `statementsReferences` — the references that are meant.
* `Pieces` — how a piece of text is cut; `Pieces.append`, `Pieces.word`, `Names.pieces` — the
  pieces of a statement, `Statement.pieces` — a statement.
-/

namespace ModuleLookup

/-! ## What is written -/

/-- A part of what may stand between two tokens. -/
inductive Spacer where
  /-- a blank character -/
  | blank (c : Char) (h : isBlank c = true)
  /-- a line comment, with the end of its line -/
  | line (body : List Char) (h : '\n' ∉ body)
  /-- a block comment -/
  | block (body : List Char) (h : ¬['*', '/'] <:+: body)

def Spacer.text : Spacer → List Char
  | blank c _ => [c]
  | line body _ => '/' :: '/' :: (body ++ ['\n'])
  | block body _ => '/' :: '*' :: (body ++ ['*', '/'])

/-- The text of a gap between two tokens. -/
def gapText (gap : List Spacer) : List Char :=
  gap.flatMap Spacer.text

/-- A specifier in its quotes. -/
structure Quotation where
  /-- the quote on both sides -/
  quote : Char
  /-- the specifier -/
  body : List Char
  /-- the quote is a single or a double one -/
  quote_eq : quote = '\x22' ∨ quote = '\x27'
  /-- nothing in the specifier ends or escapes anything -/
  plain : ∀ c ∈ body, c ≠ '\\' ∧ c ≠ '\n' ∧ c ≠ quote

def Quotation.text (q : Quotation) : List Char :=
  q.quote :: (q.body ++ [q.quote])

/-- The names in a clause, with what is around them up to `from`. -/
structure Names where
  /-- the text of the clause -/
  text : List Char
  /-- it is not too long -/
  short : byteLength text < 1000
  /-- it begins with a blank -/
  begins : ∃ c ∈ text.head?, isBlank c = true
  /-- it ends with a blank -/
  ends : ∃ c ∈ text.getLast?, isBlank c = true
  /-- it is made of blanks, braces, commas, stars and words -/
  made_of : ∀ c ∈ text, isBlank c = true ∨ c ∈ ['{', '}', ',', '*'] ∨ isWordChar c = true
  /-- no word in it is a keyword of a clause -/
  no_keyword : ∀ before word behind, text = before ++ word ++ behind →
    (∀ c ∈ before.getLast?, isWordChar c = false) →
    (∀ c ∈ behind.head?, isWordChar c = false) →
    word ≠ "from".toList ∧ word ≠ "import".toList ∧ word ≠ "export".toList

/-- A statement that refers to a module. -/
inductive Statement where
  /-- `require( "x" )` -/
  | require (gap : List Spacer) (q : Quotation) (close : List Spacer)
  /-- `import( "x" )` -/
  | dynamic (gap : List Spacer) (q : Quotation) (close : List Spacer)
  /-- `import "x"` -/
  | sideEffect (gap : List Spacer) (q : Quotation)
  /-- `import { a } from "x"` -/
  | importFrom (names : Names) (gap : List Spacer) (q : Quotation)
  /-- `export { a } from "x"` -/
  | exportFrom (names : Names) (gap : List Spacer) (q : Quotation)

namespace Statement

def kind : Statement → Reference.Kind
  | require .. => .require
  | dynamic .. => .dynamic
  | sideEffect .. => .sideEffect
  | importFrom .. => .importFrom
  | exportFrom .. => .exportFrom

/-- The specifier that the statement refers to. -/
def quotation : Statement → Quotation
  | require _ q _ | dynamic _ q _ | sideEffect _ q | importFrom _ _ q | exportFrom _ _ q => q

/-- The text before the specifier. -/
def opening : Statement → List Char
  | require gap _ _ => "require".toList ++ '(' :: gapText gap
  | dynamic gap _ _ => "import".toList ++ '(' :: gapText gap
  | sideEffect gap _ => "import".toList ++ gapText gap
  | importFrom names gap _ => "import".toList ++ (names.text ++ ("from".toList ++ gapText gap))
  | exportFrom names gap _ => "export".toList ++ (names.text ++ ("from".toList ++ gapText gap))

/-- The text behind the specifier. -/
def closing : Statement → List Char
  | require _ _ gap | dynamic _ _ gap => gapText gap ++ [')']
  | sideEffect .. | importFrom .. | exportFrom .. => []

def text (s : Statement) : List Char :=
  s.opening ++ (s.quotation.text ++ s.closing)

/-- The reference that a statement makes behind a text. -/
def reference (before : List Char) (s : Statement) : Reference where
  raw := String.ofList s.quotation.body
  kind := s.kind
  line := lineBehind ((before ++ s.opening).count '\n')
  start := byteLength (before ++ s.opening) + 1
  stop := byteLength (before ++ s.opening) + 1 + byteLength s.quotation.body

end Statement

/-- Statements as they are written, each with a semicolon and a gap behind it. -/
def statementsText (ss : List (Statement × List Spacer)) : List Char :=
  ss.flatMap fun s => s.1.text ++ ';' :: gapText s.2

/-- The references that statements make behind a text. -/
def statementsReferences (before : List Char) : List (Statement × List Spacer) → List Reference
  | [] => []
  | (s, gap) :: ss =>
    s.reference before :: statementsReferences (before ++ (s.text ++ ';' :: gapText gap)) ss

/-! ## How it is cut -/

/-- A piece of text is cut into these tokens, whatever comes behind it. -/
def Pieces (text : List Char) (ts : List Token) : Prop :=
  ∀ rest us, Lexed rest us → Lexed (text ++ rest) (ts ++ us)

/-- A text that is one word. -/
def IsWord (w : List Char) : Prop :=
  w ≠ [] ∧ ∀ c ∈ w, isWordChar c = true

/-- A word ends in front of this text. -/
def EndsWord (text : List Char) : Prop :=
  ∃ c ∈ text.head?, isWordChar c = false

namespace Pieces

variable {a b : List Char} {ts us : List Token}

theorem nil : Pieces [] [] :=
  fun _ _ h => h

theorem append (ha : Pieces a ts) (hb : Pieces b us) : Pieces (a ++ b) (ts ++ us) := by
  intro rest vs hrest
  rw [List.append_assoc, List.append_assoc]
  exact ha _ _ (hb _ _ hrest)

/-- A token that the rules cut off in front of anything. -/
theorem token {t : Token} (h : ∀ rest, t.Cut rest) : Pieces t.text [t] :=
  fun rest _ hrest => .cons (h rest) hrest

/-- A word needs something behind it that ends it. -/
theorem word {w : List Char} (hw : IsWord w) (hb : EndsWord b) (h : Pieces b us) :
    Pieces (w ++ b) (.word w :: us) := by
  intro rest vs hrest
  obtain ⟨c, hc, hclear⟩ := hb
  have hcut : (Token.word w).Cut (b ++ rest) := by
    refine .word hw.1 hw.2 fun d hd => ?_
    rw [List.head?_append, Option.mem_def.1 hc, Option.some_or] at hd
    rw [← Option.some.inj hd]
    exact hclear
  rw [List.append_assoc]
  exact .cons hcut (h rest vs hrest)

/-- The tokens written one after the other are the text. -/
theorem tokens_eq (h : Pieces a ts) : tokens a = ts := by
  have hlexed := h [] [] .nil
  rw [List.append_nil, List.append_nil] at hlexed
  exact tokens_eq_iff_lexed.2 hlexed

theorem flatMap_text (h : Pieces a ts) : ts.flatMap Token.text = a := by
  rw [← h.tokens_eq, tokens_text]

end Pieces

theorem EndsWord.append {a : List Char} (h : EndsWord a) (b : List Char) : EndsWord (a ++ b) := by
  obtain ⟨c, hc, hclear⟩ := h
  refine ⟨c, ?_, hclear⟩
  rw [List.head?_append, Option.mem_def.1 hc, Option.some_or, Option.mem_some]

/-! ### Gaps and specifiers -/

namespace Spacer

def tokens : Spacer → List Token
  | blank c _ => [.blank c]
  | line body _ => [.comment ('/' :: '/' :: body), .blank '\n']
  | block body _ => [.comment ('/' :: '*' :: (body ++ ['*', '/']))]

theorem pieces (s : Spacer) : Pieces s.text s.tokens := by
  cases s with
  | blank c h => exact .token fun rest => .blank h
  | line body h =>
    intro rest us hrest
    have hcut : (Token.comment ('/' :: '/' :: body)).Cut ('\n' :: rest) :=
      .line h fun c hc => (Option.some.inj hc).symm
    have hnewline : (Token.blank '\n').Cut rest := .blank (by decide)
    have hlexed := Lexed.cons hcut (.cons hnewline hrest)
    simpa [text, tokens, Token.text] using hlexed
  | block body h => exact .token fun rest => .block h

theorem isTrivia_of_mem_tokens {s : Spacer} {t : Token} (h : t ∈ s.tokens) :
    t.isTrivia = true := by
  cases s with
  | blank | block =>
    rw [List.mem_singleton.1 h]
    rfl
  | line =>
    rcases List.mem_cons.1 h with rfl | h
    · rfl
    · rw [List.mem_singleton.1 h]
      rfl

theorem endsWord (s : Spacer) : EndsWord s.text := by
  cases s with
  | blank c h => exact ⟨c, rfl, isWordChar_eq_false_of_isBlank h⟩
  | line | block => exact ⟨'/', rfl, by decide⟩

end Spacer

/-- The tokens of a gap. -/
def gapTokens (gap : List Spacer) : List Token :=
  gap.flatMap Spacer.tokens

theorem pieces_gap (gap : List Spacer) : Pieces (gapText gap) (gapTokens gap) := by
  induction gap with
  | nil => exact .nil
  | cons s gap ih => exact s.pieces.append ih

theorem isTrivia_of_mem_gapTokens {gap : List Spacer} {t : Token} (h : t ∈ gapTokens gap) :
    t.isTrivia = true := by
  obtain ⟨s, -, ht⟩ := List.mem_flatMap.1 h
  exact Spacer.isTrivia_of_mem_tokens ht

theorem endsWord_gap (gap : List Spacer) {b : List Char} (hb : EndsWord b) :
    EndsWord (gapText gap ++ b) := by
  cases gap with
  | nil => exact hb
  | cons s gap =>
    rw [gapText, List.flatMap_cons, List.append_assoc]
    exact s.endsWord.append _

namespace Quotation

variable (q : Quotation)

def token : Token :=
  .literal q.quote q.body true

theorem isQuote_quote : isQuote q.quote = true := by
  rcases q.quote_eq with h | h
  · rw [h]
    decide
  · rw [h]
    decide

theorem inside : Token.Inside q.quote q.body := by
  have hplain := q.plain
  generalize q.body = body at hplain
  induction body with
  | nil => exact .nil
  | cons c body ih =>
    obtain ⟨hescape, hline, hquote⟩ := hplain c List.mem_cons_self
    exact .char hquote hescape (fun h => absurd h hline)
      (ih fun d hd => hplain d (List.mem_cons_of_mem c hd))

theorem pieces : Pieces q.text [q.token] :=
  .token fun _ => .closed q.isQuote_quote q.inside

theorem endsWord : EndsWord q.text :=
  ⟨q.quote, rfl, isWordChar_eq_false_of_isQuote q.isQuote_quote⟩

theorem stringBody?_token : Stage.stringBody? q.token = some (q.body, true) := by
  refine Stage.stringBody?_eq_some_iff.2 ⟨q.quote, ?_, rfl⟩
  rcases q.quote_eq with h | h
  · rw [h]
    decide
  · rw [h]
    decide

end Quotation

/-! ### Clauses -/

namespace Names

variable (names : Names)

/-- No comment and no literal begins in a clause. -/
theorem isQuote_eq_false {c : Char} (hc : c ∈ names.text) : isQuote c = false ∧ c ≠ '/' := by
  rcases names.made_of c hc with h | h | h
  · refine ⟨isQuote_eq_false_of_isBlank h, ?_⟩
    rintro rfl
    exact absurd h (by decide)
  · simp only [List.mem_cons, List.not_mem_nil, or_false] at h
    rcases h with rfl | rfl | rfl | rfl <;> decide
  · constructor
    · cases hq : isQuote c with
      | false => rfl
      | true =>
        rw [isWordChar_eq_false_of_isQuote hq] at h
        cases h
    · rintro rfl
      exact absurd h (by decide)

/-- A clause is cut into blanks, marks and words that are no keywords. -/
theorem token_cases {ts us : List Token} {t : Token} (h : tokens names.text = ts ++ t :: us) :
    (∃ c, isBlank c = true ∧ t = .blank c) ∨ (∃ c ∈ ['{', '}', ',', '*'], t = .mark c) ∨
      ∃ w, t = .word w ∧ (∀ c ∈ w, isWordChar c = true) ∧
        w ≠ "from".toList ∧ w ≠ "import".toList ∧ w ≠ "export".toList := by
  have htext := tokens_text names.text
  rw [h, List.flatMap_append, List.flatMap_cons] at htext
  have hmem {c : Char} {rest : List Char} (ht : t.text = c :: rest) : c ∈ names.text := by
    rw [← htext, ht]
    simp
  have hcut := cut_of_tokens_eq h
  generalize us.flatMap Token.text = rest at hcut htext
  cases hcut with
  | line | block | openBlock => exact absurd rfl (names.isQuote_eq_false (hmem rfl)).2
  | closed hq | unclosed hq | unescaped hq =>
    rw [(names.isQuote_eq_false (hmem rfl)).1] at hq
    cases hq
  | @word w _ hne hw hrest =>
    refine .inr (.inr ⟨w, rfl, hw, ?_⟩)
    refine names.no_keyword (ts.flatMap Token.text) w rest ?_ ?_ hrest
    · rw [← htext, List.append_assoc]
      rfl
    · exact fun c hc => (clear_before_word h c hc).1
  | @blank c _ hb => exact .inl ⟨c, hb, rfl⟩
  | @mark c _ hq hb hw =>
    refine .inr (.inl ⟨c, ?_, rfl⟩)
    rcases names.made_of c (hmem rfl) with hc | hc | hc
    · rw [hb] at hc
      cases hc
    · exact hc
    · rw [hw] at hc
      cases hc

/-- A clause is cut alone: its last blank ends every word in it. -/
theorem pieces : Pieces names.text (tokens names.text) := by
  intro rest us hrest
  refine .append (tokens_eq_iff_lexed.1 rfl) (fun t ht => ?_) hrest
  obtain ⟨ts, hts⟩ := List.getLast?_eq_some_iff.1 ht
  -- the last character of the clause is the last one of its last token
  obtain ⟨b, hb, hblank⟩ := names.ends
  have htext := tokens_text names.text
  rw [hts, List.flatMap_append, List.flatMap_singleton] at htext
  have hlast : t.text ≠ [] → b ∈ t.text := by
    intro hne
    rw [← htext, List.getLast?_append, List.getLast?_eq_some_getLast hne, Option.some_or] at hb
    rw [← Option.some.inj hb]
    exact List.getLast_mem hne
  rcases names.token_cases hts with ⟨c, hc, rfl⟩ | ⟨c, hc, rfl⟩ | ⟨w, rfl, hw, -⟩
  · exact .blank hc
  · obtain rfl := List.mem_singleton.1 (hlast (List.cons_ne_nil c []))
    simp only [List.mem_cons, List.not_mem_nil, or_false] at hc
    rcases hc with rfl | rfl | rfl | rfl <;> exact absurd hblank (by decide)
  · have hword := hw b (hlast (cut_of_tokens_eq hts).text_ne_nil)
    rw [isWordChar_eq_false_of_isBlank hblank] at hword
    cases hword

theorem endsWord : EndsWord names.text := by
  obtain ⟨c, hc, hb⟩ := names.begins
  exact ⟨c, hc, isWordChar_eq_false_of_isBlank hb⟩

/-- Nothing in a clause ends it, or is its `from`. -/
theorem lexeme_of_mem {p : Place} {l : Lexeme} (hl : l ∈ lexemes p (tokens names.text)) :
    l.endsClause = false ∧ l.isKeyword "from" = false := by
  have hmem := List.mem_map_of_mem hl (f := Lexeme.token)
  rw [map_token_lexemes] at hmem
  obtain ⟨ts, us, htokens⟩ := List.append_of_mem hmem
  rcases names.token_cases htokens with ⟨c, -, hl⟩ | ⟨c, hc, hl⟩ | ⟨w, hl, -, hf, hi, he⟩
  · refine ⟨?_, Lexeme.isKeyword_eq_false (by simp [hl]) "from"⟩
    rw [Lexeme.endsClause, hl]
  · refine ⟨?_, Lexeme.isKeyword_eq_false (by simp [hl]) "from"⟩
    rw [Lexeme.endsClause, hl]
    refine decide_eq_false fun hends => ?_
    simp only [List.mem_cons, List.not_mem_nil, or_false] at hc
    rcases hc with rfl | rfl | rfl | rfl <;> exact absurd hends (by decide)
  · have hne {keyword : String} (h : w ≠ keyword.toList) : l.isKeyword keyword = false := by
      rw [← Bool.not_eq_true, Lexeme.isKeyword_iff, hl]
      exact fun hk => h (Token.word.inj hk.2)
    refine ⟨?_, hne hf⟩
    rw [Lexeme.endsClause, hl]
    exact Bool.or_eq_false_iff.2 ⟨hne hi, hne he⟩

/-- There is no dot in a clause. -/
theorem dot_not_mem : .mark '.' ∉ tokens names.text := by
  intro hmem
  obtain ⟨ts, us, htokens⟩ := List.append_of_mem hmem
  rcases names.token_cases htokens with ⟨c, -, h⟩ | ⟨c, hc, h⟩ | ⟨w, h, -⟩
  · cases h
  · cases h
    exact absurd hc (by decide)
  · cases h

end Names

/-! ### Statements -/

theorem pieces_mark {c : Char} (hc : c ∈ ['(', ')', ';']) : Pieces [c] [.mark c] := by
  refine .token (t := .mark c) fun rest => ?_
  simp only [List.mem_cons, List.not_mem_nil, or_false] at hc
  rcases hc with rfl | rfl | rfl <;>
    exact .mark (by decide) (by decide) (by decide) fun h => absurd h (by decide)

/-- The keywords of the forms are words. -/
theorem isWord_keyword (kind : Reference.Kind) : IsWord kind.keyword.toList := by
  have hall : kind.keyword.toList.all isWordChar = true := by
    cases kind <;> decide +kernel
  refine ⟨?_, List.all_eq_true.1 hall⟩
  cases kind <;> decide +kernel

theorem isWord_from : IsWord "from".toList := by
  have hall : "from".toList.all isWordChar = true := by decide +kernel
  exact ⟨by decide +kernel, List.all_eq_true.1 hall⟩

namespace Statement

/-- The tokens before the specifier. -/
def openingTokens : Statement → List Token
  | require gap _ _ => .word "require".toList :: .mark '(' :: gapTokens gap
  | dynamic gap _ _ => .word "import".toList :: .mark '(' :: gapTokens gap
  | sideEffect gap _ => .word "import".toList :: gapTokens gap
  | importFrom names gap _ => .word "import".toList ::
      (ModuleLookup.tokens names.text ++ .word "from".toList :: gapTokens gap)
  | exportFrom names gap _ => .word "export".toList ::
      (ModuleLookup.tokens names.text ++ .word "from".toList :: gapTokens gap)

/-- The tokens behind the specifier. -/
def closingTokens : Statement → List Token
  | require _ _ gap | dynamic _ _ gap => gapTokens gap ++ [.mark ')']
  | sideEffect .. | importFrom .. | exportFrom .. => []

def tokens (s : Statement) : List Token :=
  s.openingTokens ++ s.quotation.token :: s.closingTokens

section Forms

variable {w : List Char} (hw : IsWord w) (gap : List Spacer) (q : Quotation)

include hw

theorem pieces_call (close : List Spacer) :
    Pieces ((w ++ '(' :: gapText gap) ++ (q.text ++ (gapText close ++ [')'])))
      ((.word w :: .mark '(' :: gapTokens gap)
        ++ q.token :: (gapTokens close ++ [.mark ')'])) := by
  have hclose := q.pieces.append ((pieces_gap close).append (pieces_mark (c := ')') (by decide)))
  have hopen := (pieces_mark (c := '(') (by decide)).append ((pieces_gap gap).append hclose)
  have hword := hopen.word hw ⟨'(', rfl, by decide⟩
  simpa only [List.append_assoc, List.cons_append, List.nil_append] using hword

/-- A word with nothing but a gap before the specifier. -/
theorem pieces_specifier :
    Pieces (w ++ gapText gap ++ q.text) ((.word w :: gapTokens gap) ++ [q.token]) := by
  rw [List.append_assoc]
  exact ((pieces_gap gap).append q.pieces).word hw (endsWord_gap gap q.endsWord)

theorem pieces_from (names : Names) :
    Pieces (w ++ (names.text ++ ("from".toList ++ gapText gap)) ++ q.text)
      ((.word w ::
        (ModuleLookup.tokens names.text ++ .word "from".toList :: gapTokens gap))
          ++ [q.token]) := by
  have hfrom := pieces_specifier isWord_from gap q
  have hword := (names.pieces.append hfrom).word hw (names.endsWord.append _)
  simpa only [List.append_assoc, List.cons_append, List.nil_append] using hword

end Forms

/-- **A statement is cut alone.** -/
theorem pieces (s : Statement) : Pieces s.text s.tokens := by
  have hword := isWord_keyword s.kind
  cases s with
  | require gap q close | dynamic gap q close => exact pieces_call hword gap q close
  | sideEffect gap q =>
    rw [text, closing, List.append_nil]
    exact pieces_specifier hword gap q
  | importFrom names gap q | exportFrom names gap q =>
    rw [text, closing, List.append_nil]
    exact pieces_from hword gap q names

theorem flatMap_text_openingTokens (s : Statement) :
    s.openingTokens.flatMap Token.text = s.opening := by
  have hgap (gap : List Spacer) := (pieces_gap gap).flatMap_text
  have hword (w : List Char) (gap : List Spacer) :
      (Token.word w :: gapTokens gap).flatMap Token.text = w ++ gapText gap := by
    rw [List.flatMap_cons, hgap, Token.text]
  have hcall (w : List Char) (gap : List Spacer) :
      (Token.word w :: .mark '(' :: gapTokens gap).flatMap Token.text
        = w ++ '(' :: gapText gap := by
    rw [List.flatMap_cons, List.flatMap_cons, hgap]
    rfl
  have hfrom (w : List Char) (names : Names) (gap : List Spacer) :
      (Token.word w :: (ModuleLookup.tokens names.text ++ .word "from".toList
        :: gapTokens gap)).flatMap Token.text
          = w ++ (names.text ++ ("from".toList ++ gapText gap)) := by
    rw [List.flatMap_cons, List.flatMap_append, hword, tokens_text, Token.text]
  cases s with
  | require gap | dynamic gap => exact hcall _ gap
  | sideEffect gap => exact hword _ gap
  | importFrom names gap | exportFrom names gap => exact hfrom _ names gap

end Statement

end ModuleLookup
