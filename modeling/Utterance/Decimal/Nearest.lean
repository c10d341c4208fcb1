/-!
# The floating point number nearest to a fraction

`ofFraction` rounds an exact quotient of natural numbers once, a tie to the even significand, and builds
the number from its bits.  Every conversion of the library to floating point goes through it.
-/

namespace Utterance.Decimal

/-- The quotient rounded to the nearest whole number, a tie to the even one. -/
def roundQuotient (num den : Nat) : Nat :=
  let q := num / den
  let twice := 2 * (num % den)
  if twice < den || (twice == den && q % 2 == 0) then q else q + 1

/-- The quotient of `num` and `den · 2 ^ e` as a fraction. -/
def unscale (num den : Nat) (e : Int) : Nat × Nat :=
  (num * Nat.pow 2 (-e).toNat, den * Nat.pow 2 e.toNat)

/-- The power of two of the last bit that a number of that size can hold. -/
def lastBit (num den : Nat) : Int :=
  let e := max ((Nat.log2 num : Int) - Nat.log2 den - 53) (-1074)
  let (n, d) := unscale num den e
  if Nat.pow 2 53 ≤ n / d then e + 1 else e

/-- The bits of the number nearest to the positive quotient of `num` and `den`. -/
def nearestBits (num den : Nat) : Nat :=
  let e := lastBit num den
  let (n, d) := unscale num den e
  let significand := roundQuotient n d
  let bits :=
    if significand < Nat.pow 2 52 then significand
    else (e + 1075).toNat * Nat.pow 2 52 + (significand - Nat.pow 2 52)
  min bits (2047 * Nat.pow 2 52)

/-- The floating point number nearest to the quotient of `num` and `den`. -/
def ofFraction (num den : Nat) : Float :=
  if num == 0 then 0 else Float.ofBits (UInt64.ofNat (nearestBits num den))

def ofNat (n : Nat) : Float := ofFraction n 1

def ofInt (n : Int) : Float := if n < 0 then -ofNat n.natAbs else ofNat n.natAbs

/-- The floating point number nearest to `n · 10 ^ e`.  Beyond the bounds tested first the answer does not
depend on the digits. -/
def ofDecimal (n : Nat) (e : Int) : Float :=
  if n == 0 then 0
  else
    let size := (Nat.log2 n : Int) * 30103 / 100000 + e
    if 400 < size then 1.0 / 0.0
    else if size < -400 then 0
    else ofFraction (n * Nat.pow 10 e.toNat) (Nat.pow 10 (-e).toNat)

end Utterance.Decimal
