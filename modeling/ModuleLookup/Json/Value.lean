import ModuleLookup.Decimal.Shortest

/-!
# JSON values

Values as they are read from manifests and written in reports. Integers keep their
exact value; every other number is a double. An object is the list of its fields in
the order in which they are to be written.
-/

namespace ModuleLookup.Json

/-- A number. -/
inductive Number where
  /-- a natural number below `2 ^ 64` -/
  | natural (n : Nat)
  /-- the integer `-n`, for a positive `n` of at most `2 ^ 63` -/
  | negative (n : Nat)
  /-- a double: whether it is negative, and its magnitude -/
  | real (isNegative : Bool) (magnitude : Binary64)
  deriving DecidableEq, Inhabited

/-- A value. -/
inductive Value where
  /-- nothing -/
  | null
  /-- a truth value -/
  | bool (b : Bool)
  /-- a number -/
  | number (n : Number)
  /-- a text -/
  | string (s : String)
  /-- a list of values -/
  | list (vs : List Value)
  /-- named values, in the order in which they are written -/
  | object (fields : List (String × Value))
  deriving Inhabited

/-- Fields in increasing order of their names, with one more put in; a field of the
same name is replaced. -/
def insertField (name : String) (v : Value) : List (String × Value) → List (String × Value)
  | [] => [(name, v)]
  | (other, w) :: fields =>
    if name < other then (name, v) :: (other, w) :: fields
    else if name = other then (name, v) :: fields
    else (other, w) :: insertField name v fields

namespace Number

/-- The text of a double that is not zero. From `1e-5` up to `1e16` the point is
written in its place, elsewhere the power of ten is. -/
def decimalText (d : Decimal) : String :=
  let digits := d.digitText
  let count := digits.length
  let lead := d.exponent + count - 1
  let zeros (n : Nat) : String := String.ofList (List.replicate n '0')
  if -5 ≤ lead ∧ lead < 16 then
    if 0 ≤ d.exponent then digits ++ zeros d.exponent.toNat ++ ".0"
    else if 0 ≤ lead then
      let whole := lead.toNat + 1
      String.ofList (digits.toList.take whole) ++ "." ++ String.ofList (digits.toList.drop whole)
    else "0." ++ zeros (-lead - 1).toNat ++ digits
  else
    let fraction := String.ofList (digits.toList.drop 1)
    let point := if fraction.isEmpty then "" else "."
    let sign := if lead < 0 then "-" else "+"
    String.ofList (digits.toList.take 1) ++ point ++ fraction ++ "e" ++ sign ++ toString lead.natAbs

/-- The text of a number. -/
def text : Number → String
  | natural n => toString n
  | negative n => "-" ++ toString n
  | real isNegative x =>
    (if isNegative then "-" else "")
      ++ if x.mantissa = 0 then "0.0" else decimalText (Decimal.shortest x)

end Number

namespace Value

/-- The value of a field of an object. -/
def field? (v : Value) (name : String) : Option Value :=
  match v with
  | object fields => fields.lookup name
  | _ => none

/-- A natural number as a value. -/
def ofNat (n : Nat) : Value :=
  number (.natural n)

/-- A field that is left out when it has no value. -/
def optionalField (name : String) (v : Option Value) : List (String × Value) :=
  v.toList.map fun v => (name, v)

/-- A list of texts as a value. -/
def ofStrings (ss : List String) : Value :=
  list (ss.map string)

end Value

end ModuleLookup.Json
