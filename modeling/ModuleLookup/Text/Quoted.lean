import ModuleLookup.Text.Unprintable
import ModuleLookup.Text.Combining

/-!
# Quoted text

The form in which a text supplied by the user is shown inside a message: between
double quotes, with a backslash before what would end or blur the quotation.
-/

namespace ModuleLookup

/-- The digits of a number in base sixteen, in lower case. -/
def hexDigits (n : Nat) : String :=
  String.ofList (Nat.toDigits 16 n)

/-- One character of a quoted text. Characters that cannot be seen on their own are
written by their code point. -/
def quoteChar (c : Char) : String :=
  if c = '\x00' then "\\0"
  else if c = '\t' then "\\t"
  else if c = '\r' then "\\r"
  else if c = '\n' then "\\n"
  else if c = '\x22' then "\\\""
  else if c = '\\' then "\\\\"
  else if isCombining c || isUnprintable c then "\\u\x7b" ++ hexDigits c.toNat ++ "\x7d"
  else String.ofList [c]

/-- A text in double quotes. -/
def quoted (s : String) : String :=
  "\"" ++ String.join (s.toList.map quoteChar) ++ "\""

end ModuleLookup
