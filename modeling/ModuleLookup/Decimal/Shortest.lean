import ModuleLookup.Decimal.Binary64

/-!
# Shortest decimals

The decimal written for a double is the one with the fewest digits among those that
read back as it; of several, the nearest, and on a tie the one with the even last
digit. The search tries the two neighbours of the value on the grids of one to
seventeen digits, in exact arithmetic.
-/

namespace ModuleLookup

/-- A decimal `digits · 10 ^ exponent`. -/
structure Decimal where
  /-- the digits, read as a number -/
  digits : Nat
  /-- the power of ten they are scaled by -/
  exponent : Int
  deriving DecidableEq, Inhabited

namespace Decimal

/-- The value as a ratio of natural numbers. -/
def ratio (d : Decimal) : Nat × Nat :=
  (d.digits * Nat.pow 10 d.exponent.toNat, Nat.pow 10 (-d.exponent).toNat)

/-- The number of decimal digits of a natural number. -/
def digitCount (n : Nat) : Nat :=
  (Nat.toDigits 10 n).length

/-- The exponent of the leading digit of `num / den`, for a positive ratio. -/
def leadingExponent (num den : Nat) : Int :=
  if den ≤ num then digitCount (num / den) - 1
  else -(digitCount ((den + num - 1) / num - 1) : Int)

/-- Whether a decimal lies where numbers are rounded to `x`: at most half a unit
away, half of that below a power of two, and the ends belong to even mantissas. -/
def readsBack (x : Binary64) (d : Decimal) : Bool :=
  let below :=
    if x.mantissa = Nat.pow 2 52 ∧ Binary64.leastExponent < x.exponent then 1 else 2
  let lower := (Binary64.mk (4 * x.mantissa - below) (x.exponent - 2)).ratio
  let upper := (Binary64.mk (4 * x.mantissa + 2) (x.exponent - 2)).ratio
  let (n, m) := d.ratio
  if x.mantissa % 2 = 0 then lower.1 * m ≤ n * lower.2 && n * upper.2 ≤ upper.1 * m
  else lower.1 * m < n * lower.2 && n * upper.2 < upper.1 * m

/-- The better neighbour of a value on the grid of `10 ^ e`, when one reads back. -/
def neighbour? (x : Binary64) (e : Int) : Option Decimal :=
  let (num, den) := x.ratio
  let n := num * Nat.pow 10 (-e).toNat
  let d := den * Nat.pow 10 e.toNat
  let low : Decimal := ⟨n / d, e⟩
  let high : Decimal := ⟨n / d + 1, e⟩
  match readsBack x low, readsBack x high with
  | true, true =>
    let twice := 2 * (n % d)
    if twice < d ∨ (twice = d ∧ low.digits % 2 = 0) then some low else some high
  | true, false => some low
  | false, true => some high
  | false, false => none

/-- The decimal without zeros at its end. -/
def strip : Nat → Decimal → Decimal
  | 0, d => d
  | fuel + 1, d =>
    if d.digits % 10 = 0 then strip fuel ⟨d.digits / 10, d.exponent + 1⟩ else d

/-- The shortest decimal for a double that is not zero. -/
def shortest (x : Binary64) : Decimal :=
  let lead := leadingExponent x.ratio.1 x.ratio.2
  let found := (List.range 17).findSome? fun (n : Nat) => neighbour? x (lead - n)
  strip 17 (found.getD ⟨x.mantissa, 0⟩)

/-- The digits of a decimal, most significant first. -/
def digitText (d : Decimal) : String :=
  String.ofList (Nat.toDigits 10 d.digits)

end Decimal

end ModuleLookup
