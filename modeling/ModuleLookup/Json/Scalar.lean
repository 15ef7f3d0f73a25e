import ModuleLookup.Json.Fault

/-!
# Reading scalars

Readers for the parts of a JSON text that hold no other values: blanks, the three
words, strings and numbers. A reader is given the text before it and answers with a
`Read`: the value and the text that is left, which is never longer than what was
given. Recursion on what is left therefore ends.
-/

namespace ModuleLookup.Json

/-- A value read from the front of `s`, and the text that is left. -/
structure Read (α : Type) (s : List Char) where
  /-- what was read -/
  value : α
  /-- the text behind it -/
  rest : List Char
  /-- nothing was put back -/
  le : rest.length ≤ s.length

namespace Read

variable {α β : Type} {s : List Char}

/-- A value for which nothing had to be taken. -/
def here (a : α) : Read α s :=
  ⟨a, s, Nat.le_refl s.length⟩

/-- The reading with another value. -/
def map (f : α → β) (r : Read α s) : Read β s :=
  ⟨f r.value, r.rest, r.le⟩

/-- The reading behind one more character. -/
def behind (c : Char) (r : Read α s) : Read α (c :: s) :=
  ⟨r.value, r.rest, Nat.le_succ_of_le r.le⟩

/-- The reading behind one more character, whichever it is. -/
def behindNext (r : Read α (s.drop 1)) : Read α s :=
  ⟨r.value, r.rest, Nat.le_trans r.le (List.drop_suffix 1 s).length_le⟩

/-- The reading behind another. -/
def andThen (r : Read α s) (q : Read β r.rest) : Read β s :=
  ⟨q.value, q.rest, Nat.le_trans q.le r.le⟩

end Read

/-- Blanks between the parts of a text: space, tab, newline and carriage return. -/
def isSpace (c : Char) : Bool :=
  c == ' ' || c == '\t' || c == '\n' || c == '\r'

/-- The text behind any blanks. -/
def skipSpace (s : List Char) : List Char :=
  s.dropWhile isSpace

theorem length_skipSpace_le (s : List Char) : (skipSpace s).length ≤ s.length :=
  (List.dropWhile_suffix isSpace).length_le

theorem lt_of_skipSpace_eq {s cs : List Char} {c : Char} (h : skipSpace s = c :: cs) :
    cs.length < s.length := by
  have := length_skipSpace_le s
  rw [h, List.length_cons] at this
  omega

/-- Reads the letters of a word. -/
def word : (letters : List Char) → (s : List Char) → Except Fault (Read Unit s)
  | [], _ => .ok (.here ())
  | _ :: _, [] => .error (.here .endInValue [])
  | l :: letters, c :: s =>
    if c = l then do
      let r ← word letters s
      return r.behind c
    else .error (.peek .wordExpected (c :: s))

/-! ## Strings -/

/-- The value of a digit in base sixteen. -/
def hexValue? (c : Char) : Option Nat :=
  if '0' ≤ c ∧ c ≤ '9' then some (c.toNat - '0'.toNat)
  else if 'a' ≤ c ∧ c ≤ 'f' then some (c.toNat - 'a'.toNat + 10)
  else if 'A' ≤ c ∧ c ≤ 'F' then some (c.toNat - 'A'.toNat + 10)
  else none

/-- Four digits in base sixteen. Four bytes are taken before they are looked at. -/
def hexFour (s : List Char) : Except Fault (Read Nat s) :=
  if byteLength (s.take 4) < 4 then .error ⟨.endInString, 0⟩
  else
    match s with
    | a :: b :: c :: d :: rest =>
      match hexValue? a, hexValue? b, hexValue? c, hexValue? d with
      | some w, some x, some y, some z =>
        .ok (.behind a (.behind b (.behind c (.behind d
          (.here (((w * 16 + x) * 16 + y) * 16 + z))))))
      | _, _, _, _ => .error ⟨.unknownEscape, byteLength (a :: b :: c :: d :: rest) - 4⟩
    | s => .error ⟨.unknownEscape, byteLength s - 4⟩

/-- Whether a UTF-16 unit is the first of a pair. -/
def isLeading (n : Nat) : Bool :=
  0xd800 ≤ n && n ≤ 0xdbff

/-- Whether a UTF-16 unit is the second of a pair. -/
def isTrailing (n : Nat) : Bool :=
  0xdc00 ≤ n && n ≤ 0xdfff

/-- The second unit of a pair: another escape. -/
def trailingUnit : (s : List Char) → Except Fault (Read Nat s)
  | [] => .error (.here .endInString [])
  | '\\' :: [] => .error (.here .endInString [])
  | '\\' :: 'u' :: s => do
    let r ← hexFour s
    if isTrailing r.value then return .behind '\\' (r.behind 'u')
    else throw (.here .loneSurrogate r.rest)
  | '\\' :: c :: s => .error (.peek .unfinishedSurrogate (c :: s))
  | c :: s => .error (.peek .unfinishedSurrogate (c :: s))

/-- The character of an escape by code, behind its `u`. -/
def unicodeEscape (s : List Char) : Except Fault (Read Char s) := do
  let r ← hexFour s
  if isTrailing r.value then throw (.here .loneSurrogate r.rest)
  else if isLeading r.value then
    let t ← trailingUnit r.rest
    let code := (r.value - 0xd800) * 1024 + (t.value - 0xdc00) + 0x10000
    return r.andThen (t.map fun _ => Char.ofNat code)
  else return r.map Char.ofNat

/-- The character of an escape of one letter. -/
def shortEscape? (c : Char) : Option Char :=
  if c = '\x22' ∨ c = '\\' ∨ c = '/' then some c
  else if c = 'b' then some '\x08'
  else if c = 'f' then some '\x0c'
  else if c = 'n' then some '\n'
  else if c = 'r' then some '\r'
  else if c = 't' then some '\t'
  else none

/-- The character of an escape, behind its backslash. -/
def escape : (s : List Char) → Except Fault (Read Char s)
  | [] => .error (.here .endInString [])
  | c :: s =>
    if c = 'u' then do
      let r ← unicodeEscape s
      return r.behind c
    else
      match shortEscape? c with
      | some d => .ok (.behind c (.here d))
      | none => .error (.peek .unknownEscape (c :: s))

/-- The characters of a string behind its opening quote, up to the closing one. Escapes
are read by `escape`, and control characters are refused with the fault `control`. -/
def stringWith (escape : (s : List Char) → Except Fault (Read Char s))
    (control : Char → List Char → Fault) (s : List Char) :
    Except Fault (Read (List Char) s) :=
  match s with
  | [] => .error (.here .endInString [])
  | c :: s =>
    if c = '\x22' then .ok (.behind c (.here []))
    else if c = '\\' then do
      let e ← escape s
      let r ← stringWith escape control e.rest
      return .behind c (e.andThen (r.map (e.value :: ·)))
    else if c.toNat < 32 then .error (control c s)
    else do
      let r ← stringWith escape control s
      return .behind c (r.map (c :: ·))
termination_by s.length
decreasing_by
  · exact Nat.lt_succ_of_le e.le
  · exact Nat.lt_succ_self s.length

/-- The characters of a string behind its opening quote, up to the closing one. -/
def string (s : List Char) : Except Fault (Read (List Char) s) :=
  stringWith escape (fun _ s => .here .controlCharacter s) s

/-! ## Numbers -/

/-- The value of a decimal digit. -/
def digitValue (c : Char) : Nat :=
  c.toNat - '0'.toNat

/-- The greatest significand; further digits are only counted. -/
def significandLimit : Nat := Nat.pow 2 64 - 1

/-- The greatest exponent that is read. -/
def exponentLimit : Nat := Nat.pow 2 31 - 1

/-- Digits taken onto a number as long as it stays within the limit. -/
def digitsWithin (limit : Nat) : Nat → List Char → Nat × List Char
  | n, [] => (n, [])
  | n, c :: s =>
    if c.isDigit ∧ n * 10 + digitValue c ≤ limit then
      digitsWithin limit (n * 10 + digitValue c) s
    else (n, c :: s)

/-- The text behind any digits. -/
def skipDigits (s : List Char) : List Char :=
  s.dropWhile Char.isDigit

theorem length_digitsWithin_le (limit n : Nat) (s : List Char) :
    (digitsWithin limit n s).2.length ≤ s.length := by
  fun_induction digitsWithin limit n s with
  | case1 => simp
  | case2 n c s _ ih => simp only [List.length_cons]; omega
  | case3 => simp

theorem length_skipDigits_le (s : List Char) : (skipDigits s).length ≤ s.length :=
  (List.dropWhile_suffix Char.isDigit).length_le

/-- The digits that are taken onto a number. -/
def digits (limit n : Nat) (s : List Char) : Read Nat s :=
  ⟨(digitsWithin limit n s).1, (digitsWithin limit n s).2, length_digitsWithin_le limit n s⟩

/-- The number of digits with which a text goes on. -/
def digitCount (s : List Char) : Nat :=
  (s.takeWhile Char.isDigit).length

/-- Any digits. -/
def anyDigits (s : List Char) : Read Unit s :=
  ⟨(), skipDigits s, length_skipDigits_le s⟩

/-- The sign of an exponent, if there is one: whether it is a minus. -/
def sign : (s : List Char) → Read Bool s
  | '-' :: _ => .behind '-' (.here true)
  | '+' :: _ => .behind '+' (.here false)
  | _ => .here false

/-- Whether a text goes on with a digit. -/
def startsWithDigit (s : List Char) : Bool :=
  s.head?.any Char.isDigit

/-- Whether a text goes on with the mark of an exponent. -/
def startsWithExponent (s : List Char) : Bool :=
  s.head? == some 'e' || s.head? == some 'E'

/-- A power of ten as a double. -/
def powerOfTen (n : Nat) : Option Binary64 :=
  Binary64.ofNat (Nat.pow 10 n)

/-- The greatest power of ten that is a double. -/
def greatestPower : Nat := 308

/-- A double divided by `10 ^ n`, in steps no longer than the greatest power. -/
def divideByPower (x : Binary64) (n : Nat) : Option Binary64 :=
  if n ≤ greatestPower then (powerOfTen n).bind x.div
  else if x.mantissa = 0 then some x
  else
    (powerOfTen greatestPower).bind fun p =>
      (x.div p).bind fun y => divideByPower y (n - greatestPower)
termination_by n
decreasing_by
  have : 0 < greatestPower := by decide
  omega

/-- A double times `10 ^ e`, by one multiplication or by divisions. -/
def scale (x : Binary64) (e : Int) : Option Binary64 :=
  if e < 0 then divideByPower x e.natAbs
  else if e.toNat ≤ greatestPower then (powerOfTen e.toNat).bind x.mul
  else if x.mantissa = 0 then some x
  else none

/-- The number that a significand and an exponent make, read up to `s`. -/
def realNumber (isNegative : Bool) (significand : Nat) (e : Int) (s : List Char) :
    Except Fault Number :=
  match (Binary64.ofNat significand).bind (scale · e) with
  | some x => .ok (.real isNegative x)
  | none => .error (.here .numberTooLarge s)

/-- Behind the mark of an exponent: a sign and digits. An exponent beyond the limit
makes zero, or a number that is too large. -/
def exponent (isNegative : Bool) (significand : Nat) (e : Int) (s : List Char) :
    Except Fault (Read Number s) :=
  let down := sign s
  if down.rest = [] then .error (.here .endInValue [])
  else if startsWithDigit down.rest then
    let n := digits exponentLimit 0 down.rest
    if startsWithDigit n.rest then
      if significand ≠ 0 ∧ !down.value then .error (.here .numberTooLarge (n.rest.drop 1))
      else
        .ok (down.andThen (n.andThen ((anyDigits n.rest).map fun _ => .real isNegative .zero)))
    else do
      let power : Int := if down.value then e - n.value else e + n.value
      let x ← realNumber isNegative significand power n.rest
      return down.andThen (n.map fun _ => x)
  else .error (.peek .malformedNumber down.rest)

/-- Behind the digits of a number with a point or too many digits: an exponent, or
the end. -/
def scaled (isNegative : Bool) (significand : Nat) (e : Int) (s : List Char) :
    Except Fault (Read Number s) := do
  if startsWithExponent s then
    let r ← exponent isNegative significand e (s.drop 1)
    return r.behindNext
  else
    let x ← realNumber isNegative significand e s
    return .here x

/-- Behind the point of a number. Digits beyond the significand's limit are lost. -/
def fraction (isNegative : Bool) (significand : Nat) (e : Int) (s : List Char) :
    Except Fault (Read Number s) :=
  if startsWithDigit s then do
    let n := digits significandLimit significand s
    let lost := anyDigits n.rest
    let taken := digitCount s - digitCount n.rest
    let r ← scaled isNegative n.value (e - taken) lost.rest
    return n.andThen (lost.andThen r)
  else .error (.peek (if s.isEmpty then .endInValue else .malformedNumber) s)

/-- Behind the whole part of a number. -/
def afterWhole (isNegative : Bool) (significand : Nat) (e : Int) (s : List Char) :
    Except Fault (Read Number s) := do
  if s.head? = some '.' then
    let r ← fraction isNegative significand e (s.drop 1)
    return r.behindNext
  else scaled isNegative significand e s

/-- The integer with this sign, or a double where no integer is kept, read up to `s`. -/
def integer (isNegative : Bool) (significand : Nat) (s : List Char) : Except Fault Number :=
  if !isNegative then .ok (.natural significand)
  else if 0 < significand ∧ significand ≤ Nat.pow 2 63 then .ok (.negative significand)
  else realNumber true significand 0 s

/-- A number, from its first digit on. -/
def number (isNegative : Bool) (c : Char) (cs : List Char) : Except Fault (Read Number cs) :=
  if !c.isDigit then .error (.peek .malformedNumber (c :: cs))
  else if c = '0' ∧ startsWithDigit cs then .error (.peek .malformedNumber cs)
  else do
    let n := digits significandLimit (digitValue c) cs
    let lost := anyDigits n.rest
    if startsWithDigit n.rest ∨ lost.rest.head? = some '.' ∨ startsWithExponent lost.rest then
      let r ← afterWhole isNegative n.value (digitCount n.rest) lost.rest
      return n.andThen (lost.andThen r)
    else
      let x ← integer isNegative n.value lost.rest
      return n.andThen (lost.map fun _ => x)

/-- A number behind a minus sign. -/
def negativeNumber : (s : List Char) → Except Fault (Read Number s)
  | [] => .error (.here .endInValue [])
  | c :: cs => do
    let r ← number true c cs
    return r.behind c

end ModuleLookup.Json
