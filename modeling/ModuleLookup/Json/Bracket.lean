import ModuleLookup.Json.Scalar

/-!
# Between the elements of lists and objects

What may stand behind an opening bracket, behind an element and behind a field. The
answer is either the end of the list or object, or the first character of what comes
next together with the text behind that character; for a field it is always the
quote that opens its name.
-/

namespace ModuleLookup.Json

/-- The first character of something, and the text behind it. -/
structure Start (s : List Char) where
  /-- the first character -/
  char : Char
  /-- the text behind it -/
  rest : List Char
  /-- the character was taken -/
  lt : rest.length < s.length

namespace Start

variable {α : Type} {s : List Char}

/-- A reading that goes on from a start. -/
def andThen (start : Start s) (r : Read α start.rest) : Read α s :=
  ⟨r.value, r.rest, Nat.le_trans r.le (Nat.le_of_lt start.lt)⟩

/-- A start behind a start. -/
def next (start : Start s) (after : Start start.rest) : Start s :=
  ⟨after.char, after.rest, Nat.lt_trans after.lt start.lt⟩

end Start

/-- What comes next inside brackets. -/
inductive Next (s : List Char) where
  /-- the closing bracket -/
  | done (closing : Read Unit s)
  /-- another element or field -/
  | more (start : Start s)

/-- Looks for the next character that is not blank. -/
def ahead (s : List Char) : Option (Start s) :=
  match h : skipSpace s with
  | [] => none
  | c :: rest => some ⟨c, rest, lt_of_skipSpace_eq h⟩

/-- Behind the bracket that opens a list. -/
def firstElement (s : List Char) : Except Fault (Next s) :=
  match ahead s with
  | none => .error (.peek .endInList [])
  | some c => .ok (if c.char = ']' then .done (c.andThen (.here ())) else .more c)

/-- Behind an element of a list. -/
def nextElement (s : List Char) : Except Fault (Next s) :=
  match ahead s with
  | none => .error (.peek .endInList [])
  | some c =>
    if c.char = ']' then .ok (.done (c.andThen (.here ())))
    else if c.char = ',' then
      match ahead c.rest with
      | none => .error (.peek .endInValue [])
      | some d =>
        if d.char = ']' then .error (.peek .trailingComma (d.char :: d.rest))
        else .ok (.more (c.next d))
    else .error (.peek .listEndExpected (c.char :: c.rest))

/-- Behind the bracket that opens an object. -/
def firstField (s : List Char) : Except Fault (Next s) :=
  match ahead s with
  | none => .error (.peek .endInObject [])
  | some c =>
    if c.char = '\x7d' then .ok (.done (c.andThen (.here ())))
    else if c.char = '\x22' then .ok (.more c)
    else .error (.peek .keyExpected (c.char :: c.rest))

/-- Behind a field of an object. -/
def nextField (s : List Char) : Except Fault (Next s) :=
  match ahead s with
  | none => .error (.peek .endInObject [])
  | some c =>
    if c.char = '\x7d' then .ok (.done (c.andThen (.here ())))
    else if c.char = ',' then
      match ahead c.rest with
      | none => .error (.peek .endInValue [])
      | some d =>
        if d.char = '\x22' then .ok (.more (c.next d))
        else if d.char = '\x7d' then .error (.peek .trailingComma (d.char :: d.rest))
        else .error (.peek .keyExpected (d.char :: d.rest))
    else .error (.peek .objectEndExpected (c.char :: c.rest))

/-- Behind the name of a field: the colon, and the first character of its value. -/
def fieldValue (s : List Char) : Except Fault (Start s) :=
  match ahead s with
  | none => .error (.peek .endInObject [])
  | some c =>
    if c.char = ':' then
      match ahead c.rest with
      | none => .error (.peek .endInValue [])
      | some d => .ok (c.next d)
    else .error (.peek .colonExpected (c.char :: c.rest))

/-- A fault in an object as a whole stands behind the blanks that follow, and behind
the closing bracket when that is next. -/
def afterObject (s : List Char) : List Char :=
  match skipSpace s with
  | '\x7d' :: rest => rest
  | rest => rest

/-- Reads a text that holds one value and nothing else. -/
def document {α : Type} (read : (c : Char) → (cs : List Char) → Except Fault (Read α cs))
    (text : String) : Except Error α :=
  let result : Except Fault α := do
    match ahead text.toList with
    | none => throw (.peek .endInValue [])
    | some c =>
      let r ← read c.char c.rest
      match ahead r.rest with
      | none => return r.value
      | some d => throw (.peek .trailingText (d.char :: d.rest))
  result.mapError fun f => f.locate text.toList

end ModuleLookup.Json
