import ModuleLookup.Json.Bracket

/-!
# Skipping values

A value that nobody asked for is only checked for its form: numbers may be of any
size, surrogates need no partner, and nesting may be of any depth.
-/

namespace ModuleLookup.Json

/-- An escape that is only checked for its form, behind its backslash. -/
def skippedEscape : (s : List Char) → Except Fault (Read Char s)
  | [] => .error (.here .endInString [])
  | c :: s =>
    if c = 'u' then do
      let h ← hexFour s
      return .behind c (h.map fun _ => c)
    else if (shortEscape? c).isSome then .ok (.behind c (.here c))
    else .error (.peek .unknownEscape (c :: s))

/-- Skips a string behind its opening quote. -/
def skipString (s : List Char) : Except Fault (Read Unit s) := do
  let r ← stringWith skippedEscape (fun c s => .here .controlCharacter (c :: s)) s
  return r.map fun _ => ()

/-- Skips an exponent behind its mark. -/
def skipExponent (s : List Char) : Except Fault (Read Unit s) :=
  let down := sign s
  if startsWithDigit down.rest then .ok (down.andThen (anyDigits down.rest))
  else .error (.peek .malformedNumber down.rest)

/-- Skips an exponent if there is one. -/
def skipAnyExponent (s : List Char) : Except Fault (Read Unit s) := do
  if startsWithExponent s then
    let r ← skipExponent (s.drop 1)
    return r.behindNext
  else return .here ()

/-- Skips the digits behind the point of a number, and its exponent. -/
def skipFraction (s : List Char) : Except Fault (Read Unit s) := do
  if startsWithDigit s then
    let r ← skipAnyExponent (anyDigits s).rest
    return (anyDigits s).andThen r
  else throw (.peek .malformedNumber s)

/-- Skips a number, from its first digit on. -/
def skipNumber (c : Char) (cs : List Char) : Except Fault (Read Unit cs) :=
  if !c.isDigit then .error (.peek .malformedNumber (c :: cs))
  else if c = '0' ∧ startsWithDigit cs then .error (.peek .malformedNumber cs)
  else do
    let whole := anyDigits cs
    if whole.rest.head? = some '.' then
      let r ← skipFraction (whole.rest.drop 1)
      return whole.andThen r.behindNext
    else
      let r ← skipAnyExponent whole.rest
      return whole.andThen r

/-- Skips a number behind a minus sign. -/
def skipNegative : (s : List Char) → Except Fault (Read Unit s)
  | [] => .error (.peek .malformedNumber [])
  | c :: cs => do
    let r ← skipNumber c cs
    return r.behind c

/-- Skips a value that is neither a list nor an object, given its first character. -/
def skipScalar (c : Char) (cs : List Char) : Except Fault (Read Unit cs) :=
  if c = 'n' then word ['u', 'l', 'l'] cs
  else if c = 't' then word ['r', 'u', 'e'] cs
  else if c = 'f' then word ['a', 'l', 's', 'e'] cs
  else if c = '-' then skipNegative cs
  else if c.isDigit then skipNumber c cs
  else if c = '\x22' then skipString cs
  else .error (.peek .valueExpected (c :: cs))

mutual

/-- Skips a value, given its first character. -/
def skipValue (c : Char) (cs : List Char) : Except Fault (Read Unit cs) :=
  if c = '[' then
    match ahead cs with
    | none => .error (.peek .endInList [])
    | some d =>
      if d.char = ']' then .ok (d.andThen (.here ()))
      else do
        let r ← skipElements d.char d.rest
        return d.andThen r
  else if c = '\x7b' then
    match ahead cs with
    | none => .error (.peek .endInObject [])
    | some d =>
      if d.char = '\x7d' then .ok (d.andThen (.here ()))
      else do
        let r ← skipFields d.char d.rest
        return d.andThen r
  else skipScalar c cs
termination_by (cs.length, 0)
decreasing_by all_goals exact Prod.Lex.left _ _ d.lt

/-- Skips an element and all that follow it, with the closing bracket. -/
def skipElements (c : Char) (cs : List Char) : Except Fault (Read Unit cs) := do
  let v ← skipValue c cs
  match ahead v.rest with
  | none => throw (.peek .endInList [])
  | some d =>
    if d.char = ']' then return v.andThen (d.andThen (.here ()))
    else if d.char = ',' then
      match ahead d.rest with
      | none => throw (.peek .endInValue [])
      | some e =>
        let next := d.next e
        let r ← skipElements next.char next.rest
        return v.andThen (next.andThen r)
    else throw (.peek .listEndExpected (d.char :: d.rest))
termination_by (cs.length, 1)
decreasing_by
  · exact Prod.Lex.right _ (by decide)
  · exact Prod.Lex.left _ _ (Nat.lt_of_lt_of_le next.lt v.le)

/-- Skips a field, given the first character of its name, and all that follow it,
with the closing bracket. -/
def skipFields (c : Char) (cs : List Char) : Except Fault (Read Unit cs) := do
  if c = '\x22' then
    let name ← skipString cs
    let start ← fieldValue name.rest
    let v ← skipValue start.char start.rest
    let taken := name.andThen (start.andThen v)
    match ahead taken.rest with
    | none => throw (.peek .endInObject [])
    | some e =>
      if e.char = '\x7d' then return taken.andThen (e.andThen (.here ()))
      else if e.char = ',' then
        match ahead e.rest with
        | none => throw (.peek .endInObject [])
        | some f =>
          let next := e.next f
          let r ← skipFields next.char next.rest
          return taken.andThen (next.andThen r)
      else throw (.peek .objectEndExpected (e.char :: e.rest))
  else throw (.peek .keyExpected (c :: cs))
termination_by (cs.length, 1)
decreasing_by
  · exact Prod.Lex.left _ _ (Nat.lt_of_lt_of_le start.lt name.le)
  · exact Prod.Lex.left _ _ (Nat.lt_of_lt_of_le next.lt taken.le)

end

end ModuleLookup.Json
