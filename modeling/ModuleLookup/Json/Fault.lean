import ModuleLookup.Json.Value
import ModuleLookup.Text.ByteLength
import ModuleLookup.Text.Quoted

/-!
# Faults in JSON texts

Why a text was refused, and where. While a text is being read a fault remembers how
many bytes were left; `Fault.locate` turns that into a line and a column of the text.
Two kinds of point occur: `Fault.here` with the reader's own position, and
`Fault.peek` with the byte it looked at but did not take.
-/

namespace ModuleLookup.Json

/-- What was found where something else was expected. -/
inductive Found where
  /-- nothing -/
  | null
  /-- a truth value -/
  | bool (b : Bool)
  /-- a number -/
  | number (n : Number)
  /-- a text -/
  | string (s : String)
  /-- a list -/
  | list
  /-- an object -/
  | object
  deriving DecidableEq

/-- Why a text was refused. -/
inductive Cause where
  /-- the text ends where a value is due -/
  | endInValue
  /-- the text ends inside a list -/
  | endInList
  /-- the text ends inside an object -/
  | endInObject
  /-- the text ends inside a string -/
  | endInString
  /-- no value starts like this -/
  | valueExpected
  /-- a misspelt `null`, `true` or `false` -/
  | wordExpected
  /-- no colon behind a field name -/
  | colonExpected
  /-- neither a comma nor the end of a list -/
  | listEndExpected
  /-- neither a comma nor the end of an object -/
  | objectEndExpected
  /-- a comma before the end of a list or object -/
  | trailingComma
  /-- a field name that is no string -/
  | keyExpected
  /-- more text behind the value -/
  | trailingText
  /-- a number that is not well formed -/
  | malformedNumber
  /-- a number beyond the largest double -/
  | numberTooLarge
  /-- a control character inside a string -/
  | controlCharacter
  /-- an unknown escape -/
  | unknownEscape
  /-- a leading surrogate with no escape behind it -/
  | unfinishedSurrogate
  /-- a surrogate without its partner -/
  | loneSurrogate
  /-- lists and objects nested too deeply -/
  | tooDeep
  /-- a value of the wrong kind -/
  | wrongKind (found : Found) (expected : String)
  /-- a number outside the range that was asked for -/
  | outOfRange (found : Found) (expected : String)
  /-- a field given twice -/
  | duplicateField (name : String)
  /-- a field that must be given -/
  | missingField (name : String)
  /-- a list too short for the record it stands for -/
  | tooShort (count : Nat) (record : String) (size : Nat)
  deriving DecidableEq

/-- The wording for what was found. -/
def Found.text : Found → String
  | null => "null"
  | bool b => "boolean \x60" ++ (if b then "true" else "false") ++ "\x60"
  | number (.real isNegative x) =>
    "floating point \x60" ++ (Number.real isNegative x).text ++ "\x60"
  | number n => "integer \x60" ++ n.text ++ "\x60"
  | string s => "string " ++ quoted s
  | list => "sequence"
  | object => "map"

/-- The wording of a cause. -/
def Cause.message : Cause → String
  | endInValue => "EOF while parsing a value"
  | endInList => "EOF while parsing a list"
  | endInObject => "EOF while parsing an object"
  | endInString => "EOF while parsing a string"
  | valueExpected => "expected value"
  | wordExpected => "expected ident"
  | colonExpected => "expected \x60:\x60"
  | listEndExpected => "expected \x60,\x60 or \x60]\x60"
  | objectEndExpected => "expected \x60,\x60 or \x60\x7d\x60"
  | trailingComma => "trailing comma"
  | keyExpected => "key must be a string"
  | trailingText => "trailing characters"
  | malformedNumber => "invalid number"
  | numberTooLarge => "number out of range"
  | controlCharacter => "control character (\\u0000-\\u001F) found while parsing a string"
  | unknownEscape => "invalid escape"
  | unfinishedSurrogate => "unexpected end of hex escape"
  | loneSurrogate => "lone leading surrogate in hex escape"
  | tooDeep => "recursion limit exceeded"
  | wrongKind found expected => "invalid type: " ++ found.text ++ ", expected " ++ expected
  | outOfRange found expected => "invalid value: " ++ found.text ++ ", expected " ++ expected
  | duplicateField name => "duplicate field \x60" ++ name ++ "\x60"
  | missingField name => "missing field \x60" ++ name ++ "\x60"
  | tooShort count record size =>
    "invalid length " ++ toString count ++ ", expected struct " ++ record ++ " with "
      ++ toString size ++ " elements"

/-- A cause, and the bytes of the text that were left at its point. -/
structure Fault where
  /-- why the text was refused -/
  cause : Cause
  /-- bytes behind the point -/
  left : Nat
  deriving DecidableEq

namespace Fault

/-- A fault where the reader stands, with `s` before it. -/
def here (cause : Cause) (s : List Char) : Fault :=
  ⟨cause, byteLength s⟩

/-- A fault at the next byte of `s`, or at the end of the text. -/
def peek (cause : Cause) (s : List Char) : Fault :=
  ⟨cause, byteLength s - 1⟩

end Fault

/-- A place in a text: lines are counted from one, columns in bytes from zero. -/
structure Position where
  /-- the line -/
  line : Nat
  /-- the bytes of the line before the place -/
  column : Nat
  deriving DecidableEq

/-- The place reached from `p` by going `offset` bytes into a text. -/
def Position.advance (p : Position) : (offset : Nat) → List Char → Position
  | _, [] => p
  | offset, c :: cs =>
    if offset < c.utf8Size then ⟨p.line, p.column + offset⟩
    else
      let next : Position := if c = '\n' then ⟨p.line + 1, 0⟩ else ⟨p.line, p.column + c.utf8Size⟩
      next.advance (offset - c.utf8Size) cs

/-- Why a text was refused, and at which place. -/
structure Error where
  /-- why it was refused -/
  cause : Cause
  /-- where -/
  position : Position
  deriving DecidableEq

/-- The wording of an error. -/
def Error.message (e : Error) : String :=
  e.cause.message ++ " at line " ++ toString e.position.line ++ " column "
    ++ toString e.position.column

/-- The place of a fault in the text that was read. -/
def Fault.locate (f : Fault) (text : List Char) : Error where
  cause := f.cause
  position := Position.advance ⟨1, 0⟩ (byteLength text - f.left) text

end ModuleLookup.Json
