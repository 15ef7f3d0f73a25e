import ModuleLookup.Json.Bracket

/-!
# Reading values

The reader for a value of any kind. Lists and objects may be nested to a fixed
depth. Of fields with the same name the last one counts, and the fields of an object
are kept in the order of their names.
-/

namespace ModuleLookup.Json

/-- Lists and objects may be nested less deeply than this. -/
def nestingLimit : Nat := 128

/-- A value that is neither a list nor an object, given its first character. -/
def scalar (c : Char) (cs : List Char) : Except Fault (Read Value cs) := do
  if c = 'n' then
    let r ← word ['u', 'l', 'l'] cs
    return r.map fun _ => .null
  else if c = 't' then
    let r ← word ['r', 'u', 'e'] cs
    return r.map fun _ => .bool true
  else if c = 'f' then
    let r ← word ['a', 'l', 's', 'e'] cs
    return r.map fun _ => .bool false
  else if c = '-' then
    let r ← negativeNumber cs
    return r.map .number
  else if c.isDigit then
    let r ← number false c cs
    return r.map .number
  else if c = '\x22' then
    let r ← string cs
    return r.map fun s => .string (String.ofList s)
  else throw (.peek .valueExpected (c :: cs))

mutual

/-- A value, given its first character. `depth` is how much deeper it may go. -/
def value (depth : Nat) (c : Char) (cs : List Char) : Except Fault (Read Value cs) :=
  if c = '[' then
    if depth ≤ 1 then .error (.peek .tooDeep (c :: cs))
    else do
      match ← firstElement cs with
      | .done closing => return closing.map fun _ => .list []
      | .more d =>
        let r ← elements (depth - 1) d.char d.rest
        return d.andThen (r.map .list)
  else if c = '\x7b' then
    if depth ≤ 1 then .error (.peek .tooDeep (c :: cs))
    else do
      match ← firstField cs with
      | .done closing => return closing.map fun _ => .object []
      | .more d =>
        let r ← fields (depth - 1) [] d.rest
        return d.andThen (r.map .object)
  else scalar c cs
termination_by (cs.length, 0)
decreasing_by all_goals exact Prod.Lex.left _ _ d.lt

/-- An element and all that follow it, with the closing bracket. -/
def elements (depth : Nat) (c : Char) (cs : List Char) :
    Except Fault (Read (List Value) cs) := do
  let v ← value depth c cs
  match ← nextElement v.rest with
  | .done closing => return v.andThen (closing.map fun _ => [v.value])
  | .more d =>
    let r ← elements depth d.char d.rest
    return v.andThen (d.andThen (r.map (v.value :: ·)))
termination_by (cs.length, 1)
decreasing_by
  · exact Prod.Lex.right _ (by decide)
  · exact Prod.Lex.left _ _ (Nat.lt_of_lt_of_le d.lt v.le)

/-- A field behind the quote that opens its name, and all that follow it, with the
closing bracket, put into the fields before it. -/
def fields (depth : Nat) (before : List (String × Value)) (cs : List Char) :
    Except Fault (Read (List (String × Value)) cs) := do
  let name ← string cs
  let start ← fieldValue name.rest
  let v ← value depth start.char start.rest
  let known := insertField (String.ofList name.value) v.value before
  let taken := name.andThen (start.andThen v)
  match ← nextField taken.rest with
  | .done closing => return taken.andThen (closing.map fun _ => known)
  | .more d =>
    let r ← fields depth known d.rest
    return taken.andThen (d.andThen r)
termination_by (cs.length, 1)
decreasing_by
  · exact Prod.Lex.left _ _ (Nat.lt_of_lt_of_le start.lt name.le)
  · exact Prod.Lex.left _ _ (Nat.lt_of_lt_of_le d.lt taken.le)

end

/-- Reads a text that holds one value. -/
def readValue (text : String) : Except Error Value :=
  document (value nestingLimit) text

end ModuleLookup.Json
