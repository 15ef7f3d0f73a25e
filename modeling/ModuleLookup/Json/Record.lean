import ModuleLookup.Json.Reader
import ModuleLookup.Json.Skip

/-!
# Reading records

Readers for values of a known kind, and for records described by a `Schema`. A
record is written as an object, whose unknown fields are skipped, or as the list of
its fields in order. Every value of another kind is refused with what was found and
what was expected.
-/

namespace ModuleLookup.Json

/-- A reader for one value, given its first character. -/
abbrev Reader (α : Type) := (c : Char) → (cs : List Char) → Except Fault (Read α cs)

/-- Refuses the value that starts here, with the point behind it or, for a list or an
object, before it. -/
def refuse (expected : String) (c : Char) (cs : List Char) : Fault :=
  if c = '[' then .here (.wrongKind .list expected) (c :: cs)
  else if c = '\x7b' then .here (.wrongKind .object expected) (c :: cs)
  else
    match scalar c cs with
    | .error f => f
    | .ok r =>
      match r.value with
      | .bool b => .here (.wrongKind (.bool b) expected) r.rest
      | .number n => .here (.wrongKind (.number n) expected) r.rest
      | .string s => .here (.wrongKind (.string s) expected) r.rest
      | _ => .here (.wrongKind .null expected) r.rest

/-- A text. -/
def textOf (expected : String) : Reader String := fun c cs => do
  if c = '\x22' then
    let r ← string cs
    return r.map String.ofList
  else throw (refuse expected c cs)

/-- A truth value. -/
def truth : Reader Bool := fun c cs => do
  if c = 't' then
    let r ← word ['r', 'u', 'e'] cs
    return r.map fun _ => true
  else if c = 'f' then
    let r ← word ['a', 'l', 's', 'e'] cs
    return r.map fun _ => false
  else throw (refuse "a boolean" c cs)

/-- A natural number below `limit`. -/
def naturalBelow (limit : Nat) (expected : String) : Reader Nat := fun c cs => do
  if c = '-' ∨ c.isDigit then
    let r ← scalar c cs
    match r.value with
    | .number (.natural n) =>
      if n < limit then return r.map fun _ => n
      else throw (.here (.outOfRange (.number (.natural n)) expected) r.rest)
    | .number (.negative n) =>
      throw (.here (.outOfRange (.number (.negative n)) expected) r.rest)
    | _ => throw (refuse expected c cs)
  else throw (refuse expected c cs)

/-- A value, or none for `null`. -/
def optional {α : Type} (read : Reader α) : Reader (Option α) := fun c cs => do
  if c = 'n' then
    let r ← word ['u', 'l', 'l'] cs
    return r.map fun _ => none
  else
    let r ← read c cs
    return r.map some

/-- An element and all that follow it, with the closing bracket. -/
def items {α : Type} (read : Reader α) (c : Char) (cs : List Char) :
    Except Fault (Read (List α) cs) := do
  let v ← read c cs
  match ← nextElement v.rest with
  | .done closing => return v.andThen (closing.map fun _ => [v.value])
  | .more d =>
    let r ← items read d.char d.rest
    return v.andThen (d.andThen (r.map (v.value :: ·)))
termination_by cs.length
decreasing_by exact Nat.lt_of_lt_of_le d.lt v.le

/-- A list of values of one kind. -/
def listOf {α : Type} (read : Reader α) : Reader (List α) := fun c cs => do
  if c = '[' then
    match ← firstElement cs with
    | .done closing => return closing.map fun _ => []
    | .more d =>
      let r ← items read d.char d.rest
      return d.andThen r
  else throw (refuse "a sequence" c cs)

/-- A list of texts. -/
def texts : Reader (List String) :=
  listOf (textOf "a string")

/-! ## Records -/

/-- A field of a record `ρ`. -/
structure Field (ρ : Type) where
  /-- its name -/
  name : String
  /-- other names it is known by -/
  aliases : List String
  /-- whether an object has to give it -/
  required : Bool
  /-- reads its value, as a change to the record -/
  read : Reader (ρ → ρ)

/-- A field whose value is stored by `set`. -/
def Field.ofReader {ρ α : Type} (name : String) (aliases : List String) (required : Bool)
    (read : Reader α) (set : α → ρ → ρ) : Field ρ where
  name := name
  aliases := aliases
  required := required
  read c cs := do
    let r ← read c cs
    return r.map set

/-- How a record is written. -/
structure Schema (ρ : Type) where
  /-- the name of the record in messages -/
  name : String
  /-- the record before any field is read -/
  blank : ρ
  /-- its fields in order -/
  fields : List (Field ρ)
  /-- whether a list may leave out fields at its end -/
  mayEndEarly : Bool

namespace Schema

variable {ρ : Type}

/-- The field known by a name. -/
def field? (schema : Schema ρ) (name : String) : Option (Field ρ) :=
  schema.fields.find? fun f => f.name == name || f.aliases.contains name

/-- The record at the end of its object, unless a field that has to be there is not. -/
def finish (schema : Schema ρ) (seen : List String) (record : ρ) (rest : List Char) :
    Except Fault ρ :=
  match schema.fields.find? fun f => f.required && !seen.contains f.name with
  | some f => .error (.here (.missingField f.name) rest)
  | none => .ok record

/-- The change that a field makes; an unknown field is skipped. -/
def change : Option (Field ρ) → Reader (ρ → ρ)
  | some f => f.read
  | none => fun c cs => do
    let r ← skipValue c cs
    return r.map fun _ => id

/-- A field behind the quote that opens its name, and all that follow it, with the
closing bracket. `seen` names the fields before it. -/
def members (schema : Schema ρ) (seen : List String) (record : ρ) (cs : List Char) :
    Except Fault (Read ρ cs) := do
  let name ← string cs
  let field := schema.field? (String.ofList name.value)
  match field.map Field.name with
  | some known =>
    if known ∈ seen then throw (.here (.duplicateField known) (afterObject name.rest))
  | none => pure ()
  let start ← fieldValue name.rest
  let v ← change field start.char start.rest
  let seen' := field.toList.map Field.name ++ seen
  let taken := name.andThen (start.andThen v)
  match ← nextField taken.rest with
  | .done closing =>
    let whole ← schema.finish seen' (v.value record) closing.rest
    return taken.andThen (closing.map fun _ => whole)
  | .more d =>
    let r ← members schema seen' (v.value record) d.rest
    return taken.andThen (d.andThen r)
termination_by cs.length
decreasing_by exact Nat.lt_of_lt_of_le d.lt taken.le

/-- The record at the end of its list, with `count` fields read. -/
def finishList (schema : Schema ρ) (count : Nat) (record : ρ) (rest : List Char) :
    Except Fault ρ :=
  if schema.mayEndEarly then .ok record
  else .error (.here (.tooShort count schema.name schema.fields.length) rest)

/-- The bracket that closes a list with all its fields read. -/
def closeList (s : List Char) : Except Fault (Read Unit s) :=
  match ahead s with
  | none => .error (.peek .endInList [])
  | some c =>
    if c.char = ']' then .ok (c.andThen (.here ()))
    else if c.char = ',' then
      match ahead c.rest with
      | none => .error (.peek .trailingText [])
      | some d =>
        let cause : Cause := if d.char = ']' then .trailingComma else .trailingText
        .error (.peek cause (d.char :: d.rest))
    else .error (.peek .trailingText (c.char :: c.rest))

/-- Fields in order, the first one given by its first character, with the closing
bracket. -/
def positional (schema : Schema ρ) : List (Field ρ) → Nat → ρ → Reader ρ
  | [], _, _, c, cs => .error (.peek .trailingText (c :: cs))
  | f :: fs, count, record, c, cs => do
    let v ← f.read c cs
    let record := v.value record
    if fs.isEmpty then
      let r ← closeList v.rest
      return v.andThen (r.map fun _ => record)
    else
      match ← nextElement v.rest with
      | .done closing =>
        let whole ← schema.finishList (count + 1) record closing.rest
        return v.andThen (closing.map fun _ => whole)
      | .more d =>
        let r ← schema.positional fs (count + 1) record d.char d.rest
        return v.andThen (d.andThen r)

/-- The record, written as an object or as a list. -/
def read (schema : Schema ρ) : Reader ρ := fun c cs => do
  if c = '\x7b' then
    match ← firstField cs with
    | .done closing =>
      let whole ← schema.finish [] schema.blank closing.rest
      return closing.map fun _ => whole
    | .more d =>
      let r ← schema.members [] schema.blank d.rest
      return d.andThen r
  else if c = '[' then
    match ← firstElement cs with
    | .done closing =>
      let whole ← schema.finishList 0 schema.blank closing.rest
      return closing.map fun _ => whole
    | .more d =>
      let r ← schema.positional schema.fields 0 schema.blank d.char d.rest
      return d.andThen r
  else throw (refuse ("struct " ++ schema.name) c cs)

/-- Reads a text that holds one record. -/
def readText (schema : Schema ρ) (text : String) : Except Error ρ :=
  document schema.read text

end Schema

/-- An object whose fields may have any values. -/
def anyObject : Reader Value := fun c cs =>
  if c = '\x7b' then value nestingLimit c cs else .error (refuse "a map" c cs)

end ModuleLookup.Json
