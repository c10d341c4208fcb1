import Utterance.Decimal.Read
import Utterance.Decimal.Shortest

/-!
# The whole part of a floating point number

Exact, from the bits of the number.
-/

namespace Utterance.Decimal

/-- The whole part of a positive finite number, and whether nothing is left. -/
def Binary.whole (b : Binary) : Nat × Bool :=
  let num := b.significand * Nat.pow 2 b.exponent.toNat
  let den := Nat.pow 2 (-b.exponent).toNat
  (num / den, num % den == 0)

def isWhole (x : Float) : Bool :=
  match magnitude x with
  | (_, .zero) => true
  | (_, .finite b) => b.whole.2
  | _ => false

/-- The whole part, toward zero, or the nearest integer of sixty-four bits if it takes more; zero for what is
not a number. -/
def toInt64 (x : Float) : Int :=
  match magnitude x with
  | (_, .zero) => 0
  | (_, .notANumber) => 0
  | (negative, .infinite) => if negative then minInt64 else maxInt64
  | (negative, .finite b) =>
    let n : Int := b.whole.1
    if negative then max minInt64 (-n) else min maxInt64 n

end Utterance.Decimal
