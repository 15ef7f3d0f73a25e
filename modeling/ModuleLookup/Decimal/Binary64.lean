/-!
# Doubles as exact numbers

A finite double without its sign is `mantissa · 2 ^ exponent`. Every operation here
takes an exact ratio of natural numbers and rounds once, to the nearest double and
on a tie to the even mantissa; beyond the largest double there is no result.
-/

namespace ModuleLookup

/-- A finite, non-negative double. -/
structure Binary64 where
  /-- the significant bits, below `2 ^ 53` -/
  mantissa : Nat
  /-- the power of two they are scaled by -/
  exponent : Int
  deriving DecidableEq, Inhabited

namespace Binary64

/-- The least exponent, that of the subnormal doubles. -/
def leastExponent : Int := -1074

/-- The greatest exponent. -/
def greatestExponent : Int := 971

/-- Zero. -/
def zero : Binary64 := ⟨0, leastExponent⟩

/-- The value as a ratio of natural numbers. -/
def ratio (x : Binary64) : Nat × Nat :=
  (x.mantissa * Nat.pow 2 x.exponent.toNat, Nat.pow 2 (-x.exponent).toNat)

/-- `num / den` divided by `2 ^ e`, as a ratio. -/
def scaleDown (num den : Nat) (e : Int) : Nat × Nat :=
  (num * Nat.pow 2 (-e).toNat, den * Nat.pow 2 e.toNat)

/-- The natural number next to `num / den`, on a tie the even one. -/
def roundNearest (num den : Nat) : Nat :=
  let q := num / den
  let r := num % den
  if den < 2 * r ∨ (2 * r = den ∧ q % 2 = 1) then q + 1 else q

/-- The exponent at which `num / den` has 53 significant bits, or the least one. -/
def exponentOf (num den : Nat) : Int :=
  let guess := max ((num.log2 : Int) - den.log2 - 53) leastExponent
  let (n, d) := scaleDown num den guess
  if n / d < Nat.pow 2 53 then guess else guess + 1

/-- The double next to `num / den`; none when it is too large for any. -/
def ofRatio (num den : Nat) : Option Binary64 :=
  if num = 0 then some zero
  else
    let e := exponentOf num den
    let (n, d) := scaleDown num den e
    let m := roundNearest n d
    let (m, e) := if m = Nat.pow 2 53 then (Nat.pow 2 52, e + 1) else (m, e)
    if greatestExponent < e then none else some ⟨m, e⟩

/-- The double next to a natural number. -/
def ofNat (n : Nat) : Option Binary64 :=
  ofRatio n 1

/-- The product, rounded. -/
def mul (x y : Binary64) : Option Binary64 :=
  ofRatio (x.ratio.1 * y.ratio.1) (x.ratio.2 * y.ratio.2)

/-- The quotient by a double that is not zero, rounded. -/
def div (x y : Binary64) : Option Binary64 :=
  ofRatio (x.ratio.1 * y.ratio.2) (x.ratio.2 * y.ratio.1)

end Binary64

end ModuleLookup
