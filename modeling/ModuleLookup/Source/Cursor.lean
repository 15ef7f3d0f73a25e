import ModuleLookup.Source.Reference
import ModuleLookup.Text.Utf8

/-!
# Reading in place

The references of a text, found on its bytes with a cursor that is moved forward. No tokens
are cut: what is not looked for is stepped over, and a form that goes wrong is given up where
the cursor is then.

Every byte and every piece of the text that is taken is checked to be there, and every round of a
loop is checked to get ahead. One failed check makes all of `scan` fail.

* `loop` — the rounds of a loop; `skipString`, `skipComment`, `skipTrivia` — what is stepped over.
* `callArgument`, `fromClause`, `importClause` — what may stand behind a keyword.
* `nextFound` and `collect` — the places of references; `describe` — their texts and lines.
-/

namespace ModuleLookup.Cursor

/-- What could go wrong while a text is read in place. -/
inductive Fault where
  /-- a place outside of the text, or inside a character -/
  | misplaced
  /-- a loop that would not end -/
  | endless
  deriving DecidableEq

/-- A reading that may fail. -/
abbrev Checked : Type → Type :=
  Except Fault

/-- The places of a literal without its quotes. -/
structure Span where
  /-- where it starts -/
  start : Nat
  /-- where its closing quote is -/
  stop : Nat
  deriving DecidableEq

/-- A reference by its places. -/
structure Found where
  /-- the form it was found in -/
  kind : Reference.Kind
  /-- where it is -/
  span : Span
  deriving DecidableEq

/-- What was found, if anything, and where the cursor is then. -/
abbrev Outcome (α : Type) : Type :=
  Option α × Nat

/-- The form in which a literal was found. -/
def Outcome.as (kind : Reference.Kind) (o : Outcome Span) : Outcome Found :=
  (o.1.map (⟨kind, ·⟩), o.2)

/-- A round of a loop goes on at a place or ends the loop. -/
inductive Round (α : Type) where
  /-- the next round starts there -/
  | again (p : Nat)
  /-- the result -/
  | done (a : α)

/-! ## Bytes -/

section

variable (bytes : List UInt8)

/-- The byte at a place, as the character of its number. Below 128 this is what stands there; the
bytes of all other characters are not below 128, and look like none that is asked for. -/
def peek (p : Nat) : Option Char :=
  bytes[p]?.map Char.ofUInt8

/-- The same where there must be a byte. -/
def charAt (p : Nat) : Checked Char :=
  match peek bytes p with
  | some c => .ok c
  | none => .error .misplaced

/-- All bytes from a place on, which may be the end. -/
def bytesFrom (p : Nat) : Checked (List UInt8) :=
  if p ≤ bytes.length then .ok (bytes.drop p) else .error .misplaced

/-- The rounds of a loop. One that goes on must read something and get ahead. -/
def loop {α : Type} (round : Nat → Checked (Round α)) (p : Nat) : Checked α :=
  match round p with
  | .error fault => .error fault
  | .ok (.done a) => .ok a
  | .ok (.again next) =>
    if p < bytes.length ∧ p < next then loop round next else .error .endless
termination_by bytes.length - p

/-! ## Stepping over -/

/-- A byte of a kind. -/
def kindRound (kind : Char → Bool) (p : Nat) : Checked (Round Nat) :=
  .ok (if (peek bytes p).any kind then .again (p + 1) else .done p)

/-- Steps over bytes of a kind. -/
def skipWhile (kind : Char → Bool) (p : Nat) : Checked Nat :=
  loop bytes (kindRound bytes kind) p

/-- A byte inside a literal, or a backslash with the next byte. The cursor may come to stand behind
the end of the text, and inside of a character. -/
def literalRound (quote : Char) (p : Nat) : Checked (Round (Outcome Nat)) :=
  match peek bytes p with
  | none => .ok (.done (none, min p bytes.length))
  | some c =>
    if c = '\\' then .ok (.again (p + 2))
    else if c = '\n' ∧ quote ≠ '\x60' then .ok (.done (none, p))
    else if c = quote then .ok (.done (some p, p + 1))
    else .ok (.again (p + 1))

/-- Steps over a literal, to find its closing quote. -/
def skipString (p : Nat) : Checked (Outcome Nat) := do
  let quote ← charAt bytes p
  loop bytes (literalRound bytes quote) (p + 1)

/-- A byte of a block comment, or its end mark. -/
def blockRound (p : Nat) : Checked (Round Nat) :=
  if p < bytes.length then do
    let rest ← bytesFrom bytes p
    if (encode "*/").isPrefixOf rest then return .done (min (p + 2) bytes.length)
    else return .again (p + 1)
  else .ok (.done (min (p + 2) bytes.length))

/-- The end of the comment that begins here, if one does. -/
def skipComment (p : Nat) : Checked (Option Nat) :=
  if peek bytes p ≠ some '/' then .ok none
  else if peek bytes (p + 1) = some '/' then some <$> skipWhile bytes (· != '\n') p
  else if peek bytes (p + 1) = some '*' then some <$> loop bytes (blockRound bytes) (p + 2)
  else .ok none

/-- Blanks and a comment. -/
def triviaRound (p : Nat) : Checked (Round Nat) := do
  let p ← skipWhile bytes isBlank p
  match ← skipComment bytes p with
  | some next => return .again next
  | none => return .done p

/-- Steps over blanks and comments. -/
def skipTrivia (p : Nat) : Checked Nat :=
  loop bytes (triviaRound bytes) p

/-! ## Keywords -/

/-- Whether a word would go on, or name a member, if it stood here. -/
def isJoined (p : Nat) : Checked Bool :=
  if p = 0 then .ok false
  else do
    let c ← charAt bytes (p - 1)
    return isWordChar c || c == '.'

/-- Whether a keyword stands here, and stands alone. -/
def atKeyword (keyword : String) (p : Nat) : Checked Bool := do
  let rest ← bytesFrom bytes p
  if (encode keyword).isPrefixOf rest then
    if ← isJoined bytes p then return false
    else return !(peek bytes (p + keyword.utf8ByteSize)).any isWordChar
  else return false

/-- The same, looked for only where the first character of the keyword is. -/
def startsKeyword (c : Char) (keyword : String) (p : Nat) : Checked Bool :=
  if keyword.toList.head? = some c then atKeyword bytes keyword p else .ok false

/-! ## Behind a keyword -/

/-- The literal that stands here, if it is not a template and is closed. -/
def stringLiteral (p : Nat) : Checked (Outcome Span) :=
  match peek bytes p with
  | none => .ok (none, p)
  | some quote =>
    if quote = '\x22' ∨ quote = '\x27' then do
      let (stop, next) ← skipString bytes p
      return (stop.map (⟨p + 1, ·⟩), next)
    else .ok (none, p)

/-- A literal that is all of the first argument of a call. -/
def argumentAt (p : Nat) : Checked (Outcome Span) := do
  let p ← skipTrivia bytes p
  match ← stringLiteral bytes p with
  | (none, p) => return (none, p)
  | (some span, p) =>
    let p ← skipTrivia bytes p
    if peek bytes p = some ')' ∨ peek bytes p = some ',' then return (some span, p)
    else return (none, p)

/-- A parenthesis with such an argument. -/
def callArgument (p : Nat) : Checked (Outcome Span) := do
  let p ← skipTrivia bytes p
  if peek bytes p = some '(' then argumentAt bytes (p + 1) else return (none, p)

/-- A string behind `from` ends a clause; without one the clause goes on. -/
def behindFrom (p : Nat) : Checked (Round (Outcome Span)) := do
  let p ← skipTrivia bytes p
  if peek bytes p = some '\x22' ∨ peek bytes p = some '\x27' then
    return .done (← stringLiteral bytes p)
  else return .again p

/-- One piece of a clause that ends at `limit`. -/
def clauseRound (limit : Nat) (p : Nat) : Checked (Round (Outcome Span)) :=
  if p < limit then do
    match ← skipComment bytes p with
    | some next => return .again next
    | none =>
      let c ← charAt bytes p
      if isQuote c ∨ c ∈ [';', '=', '('] then return .done (none, p)
      else if ← startsKeyword bytes c "import" p then return .done (none, p)
      else if ← startsKeyword bytes c "export" p then return .done (none, p)
      else if ← startsKeyword bytes c "from" p then behindFrom bytes (p + "from".utf8ByteSize)
      else return .again (p + 1)
  else .ok (.done (none, p))

/-- The literal behind the `from` of a clause. -/
def fromClause (p : Nat) : Checked (Outcome Span) :=
  loop bytes (clauseRound bytes (min (p + clauseLimit) bytes.length)) p

/-- What may stand behind `import`. -/
def importClause (p : Nat) : Checked (Outcome Found) := do
  let p ← skipTrivia bytes p
  match peek bytes p with
  | none => return (none, p)
  | some c =>
    if c = '(' then Outcome.as .dynamic <$> callArgument bytes p
    else if c = '\x22' ∨ c = '\x27' then Outcome.as .sideEffect <$> stringLiteral bytes p
    else Outcome.as .importFrom <$> fromClause bytes p

/-! ## References -/

/-- A form that was given up is no reason to stop. -/
def Round.ofOutcome {α : Type} : Outcome α → Round (Outcome α)
  | (none, p) => .again p
  | (some a, p) => .done (some a, p)

/-- A form, if the keyword of one stands here, or one piece of ordinary code. -/
def codeRound (c : Char) (p : Nat) : Checked (Round (Outcome Found)) := do
  if isQuote c then
    let (_, next) ← skipString bytes p
    return .again next
  else if ← startsKeyword bytes c "require" p then
    Round.ofOutcome <$> Outcome.as .require <$> callArgument bytes (p + "require".utf8ByteSize)
  else if ← startsKeyword bytes c "import" p then
    Round.ofOutcome <$> importClause bytes (p + "import".utf8ByteSize)
  else if ← startsKeyword bytes c "export" p then
    Round.ofOutcome <$> Outcome.as .exportFrom <$> fromClause bytes (p + "export".utf8ByteSize)
  else return .again (p + 1)

/-- A comment, a form, or one piece of ordinary code. -/
def nextRound (p : Nat) : Checked (Round (Outcome Found)) :=
  match peek bytes p with
  | none => .ok (.done (none, p))
  | some c => do
    match ← skipComment bytes p with
    | some next => return .again next
    | none => codeRound bytes c p

/-- The first reference from a place on. -/
def nextFound (p : Nat) : Checked (Outcome Found) :=
  loop bytes (nextRound bytes) p

/-- All references from a place on. -/
def collect (p : Nat) : Checked (List Found) :=
  match nextFound bytes p with
  | .error fault => .error fault
  | .ok (none, _) => .ok []
  | .ok (some found, next) =>
    if p < bytes.length ∧ p < next then (found :: ·) <$> collect next else .error .endless
termination_by bytes.length - p

end

/-! ## Texts and lines -/

/-- A piece of a text, which must start and end between characters. -/
def slice (source : String) (span : Span) : Checked String :=
  if h : span.start ≤ span.stop ∧ String.Pos.Raw.IsValid source ⟨span.start⟩ ∧
      String.Pos.Raw.IsValid source ⟨span.stop⟩ then
    .ok (source.extract ⟨⟨span.start⟩, h.2.1⟩ ⟨⟨span.stop⟩, h.2.2⟩)
  else .error .misplaced

/-- How far lines are counted. The sum of lines and newlines goes round at 32 bits. -/
structure Counter where
  /-- the bytes that were counted -/
  offset : Nat
  /-- the line behind them -/
  line : UInt32
  deriving DecidableEq

namespace Counter

/-- Before the first byte. -/
def start : Counter := ⟨0, 1⟩

/-- The bytes from where a counter is up to a place. -/
def bytesUpTo (counter : Counter) (bytes : List UInt8) (stop : Nat) : Checked (List UInt8) :=
  if counter.offset ≤ stop ∧ stop ≤ bytes.length then
    .ok ((bytes.take stop).drop counter.offset)
  else .error .misplaced

/-- Counts on up to a place, if it lies ahead. -/
def countTo (counter : Counter) (bytes : List UInt8) (place : Nat) : Checked Counter :=
  let stop := min place bytes.length
  if counter.offset < stop then do
    let ahead ← counter.bytesUpTo bytes stop
    return ⟨stop, counter.line + UInt32.ofNat (ahead.count 0x0a)⟩
  else .ok counter

end Counter

/-- References with their texts and lines, counted in one pass. -/
def describe (source : String) : Counter → List Found → Checked (List Reference)
  | _, [] => .ok []
  | counter, found :: rest => do
    let raw ← slice source found.span
    let counter ← counter.countTo (encode source) (found.span.start - 1)
    let behind ← describe source counter rest
    return ⟨raw, found.kind, counter.line, found.span.start, found.span.stop⟩ :: behind

/-- The references of a text. -/
def scan (source : String) : Checked (List Reference) := do
  let found ← collect (encode source) 0
  describe source .start found

end ModuleLookup.Cursor
