import ModuleLookup.Json.Value
import ModuleLookup.Text.Quoted

/-!
# Writing JSON

Two layouts of the same value: `Value.compact` without any blanks, and
`Value.pretty` with every element and field on a line of its own, two spaces deeper
than the bracket around it. An empty list or object keeps its brackets together.
-/

namespace ModuleLookup.Json

/-- One character of a string. Quotes, backslashes and control characters are
escaped; everything else stands for itself. -/
def escapeChar (c : Char) : List Char :=
  if c = '\x22' then ['\\', '\x22']
  else if c = '\\' then ['\\', '\\']
  else if c = '\x08' then ['\\', 'b']
  else if c = '\x0c' then ['\\', 'f']
  else if c = '\n' then ['\\', 'n']
  else if c = '\r' then ['\\', 'r']
  else if c = '\t' then ['\\', 't']
  else if c.toNat < 32 then
    ['\\', 'u', '0', '0', Nat.digitChar (c.toNat / 16), Nat.digitChar (c.toNat % 16)]
  else [c]

/-- A string between its quotes. -/
def stringText (s : String) : String :=
  "\"" ++ String.ofList (s.toList.flatMap escapeChar) ++ "\""

namespace Value

mutual

/-- The value without blanks. -/
def compact : Value → String
  | null => "null"
  | bool b => if b then "true" else "false"
  | number n => n.text
  | string s => stringText s
  | list vs => "[" ++ ",".intercalate (compactItems vs) ++ "]"
  | object fields => "\x7b" ++ ",".intercalate (compactFields fields) ++ "\x7d"

/-- The elements of a list without blanks. -/
def compactItems : List Value → List String
  | [] => []
  | v :: vs => compact v :: compactItems vs

/-- The fields of an object without blanks. -/
def compactFields : List (String × Value) → List String
  | [] => []
  | (name, v) :: fields => (stringText name ++ ":" ++ compact v) :: compactFields fields

end

/-- Lines between brackets, each on its own line `depth + 1` steps in. -/
def layOut (opening closing : String) (depth : Nat) (lines : List String) : String :=
  let indent (n : Nat) : String := String.ofList (List.replicate (2 * n) ' ')
  if lines.isEmpty then opening ++ closing
  else
    opening ++ "\n" ++ ",\n".intercalate (lines.map (indent (depth + 1) ++ ·))
      ++ "\n" ++ indent depth ++ closing

mutual

/-- The value at a nesting depth, one element or field a line. -/
def prettyAt (depth : Nat) : Value → String
  | null => "null"
  | bool b => if b then "true" else "false"
  | number n => n.text
  | string s => stringText s
  | list vs => layOut "[" "]" depth (prettyItems (depth + 1) vs)
  | object fields => layOut "\x7b" "\x7d" depth (prettyFields (depth + 1) fields)

/-- The elements of a list. -/
def prettyItems (depth : Nat) : List Value → List String
  | [] => []
  | v :: vs => prettyAt depth v :: prettyItems depth vs

/-- The fields of an object. -/
def prettyFields (depth : Nat) : List (String × Value) → List String
  | [] => []
  | (name, v) :: fields =>
    (stringText name ++ ": " ++ prettyAt depth v) :: prettyFields depth fields

end

/-- The value with one element or field a line. -/
def pretty (v : Value) : String :=
  prettyAt 0 v

end Value

end ModuleLookup.Json
