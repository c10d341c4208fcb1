/-!
# The shortest decimal that reads back

A floating point number stands for an interval of reals: those that are nearer to it than to its
neighbours, the ends included when its significand is even.  `shortest` finds the decimal with the fewest
digits in that interval and, of several, the one nearest to the number.  For each count of digits it tests
the two points of that decimal grid that enclose the number; if the grid has a point in the interval, one
of these two is.  How an exact tie goes is the caller's choice.

All arithmetic is on natural numbers: the interval's ends and middle are multiples of one power of two.
-/

namespace Utterance.Decimal

/-- A positive finite binary number `significand · 2 ^ exponent`. -/
structure Binary where
  significand : Nat
  exponent : Int
  /-- The next smaller number is only half as far away as the next larger one. -/
  narrowBelow : Bool

/-- A positive decimal: its digits, of which the last is not zero, and the power of ten of the first. -/
structure Digits where
  digits : List Char
  exponent : Int

/-- How to choose between two decimals that are equally near. -/
inductive Tie where
  | toEven
  | up
deriving DecidableEq

/-- The number `n · 2 ^ p · 10 ^ q` as a fraction. -/
def fraction (n : Nat) (p q : Int) : Nat × Nat :=
  (n * Nat.pow 2 p.toNat * Nat.pow 10 q.toNat, Nat.pow 2 (-p).toNat * Nat.pow 10 (-q).toNat)

/-- `⌊log₁₀ x⌋`, from the estimate that the number of bits gives. -/
def Binary.magnitude (x : Binary) : Int :=
  let guess := (((Nat.log2 x.significand : Int) + x.exponent) * 30103).fdiv 100000
  let reaches (k : Int) : Bool :=
    let (n, d) := fraction x.significand x.exponent (-k)
    d ≤ n
  if reaches (guess + 2) then guess + 2 else if reaches (guess + 1) then guess + 1 else guess

/-- The point nearest to `x` on the grid of multiples of `10 ^ k`, if the interval of `x` has one. -/
def Binary.onGrid? (x : Binary) (tie : Tie) (k : Int) : Option Nat :=
  let scale (n : Nat) : Nat := (fraction n (x.exponent - 2) (-k)).1
  let unit := (fraction 1 (x.exponent - 2) (-k)).2
  let middle := scale (4 * x.significand)
  let low := scale (4 * x.significand - if x.narrowBelow then 1 else 2)
  let high := scale (4 * x.significand + 2)
  let closed := x.significand % 2 == 0
  let below := middle / unit
  let above := below + 1
  let fitsBelow := low < below * unit || (closed && low == below * unit)
  let fitsAbove := above * unit < high || (closed && high == above * unit)
  if fitsBelow && fitsAbove then
    let toBelow := middle - below * unit
    let toAbove := above * unit - middle
    if toBelow < toAbove then some below
    else if toAbove < toBelow then some above
    else if tie == .toEven && below % 2 == 0 then some below
    else some above
  else if fitsBelow then some below
  else if fitsAbove then some above
  else none

/-- The digits of a point of the grid of multiples of `10 ^ k`. -/
def Digits.ofGrid (n : Nat) (k : Int) : Digits :=
  let all := Nat.toDigits 10 n
  ⟨(all.reverse.dropWhile (· == '0')).reverse, k + (all.length : Int) - 1⟩

/-- The shortest decimal for `x`.  Seventeen digits always suffice. -/
def Binary.shortest (x : Binary) (tie : Tie) : Digits :=
  let top := x.magnitude
  let grids := (List.range 17).map fun (n : Nat) => top - Int.ofNat n
  match grids.findSome? fun k => (x.onGrid? tie k).map fun n => Digits.ofGrid n k with
  | some d => d
  | none => ⟨['0'], 0⟩

/-- A floating point number: its sign and what it is. -/
inductive Magnitude where
  | zero
  | finite (x : Binary)
  | infinite
  | notANumber

/-- Takes a floating point number apart. -/
def magnitude (x : Float) : Bool × Magnitude :=
  let bits := x.toBits.toNat
  let negative := bits / Nat.pow 2 63 == 1
  let field : Nat := bits / Nat.pow 2 52 % Nat.pow 2 11
  let fraction : Nat := bits % Nat.pow 2 52
  let m :=
    if field == 2047 then if fraction == 0 then .infinite else .notANumber
    else if field == 0 then
      if fraction == 0 then .zero else .finite ⟨fraction, -1074, false⟩
    else .finite ⟨Nat.pow 2 52 + fraction, Int.ofNat field - 1075, fraction == 0 && field != 1⟩
  (negative, m)

/-- Digits with a point after the first `whole` of them; zeros fill the places that are missing. -/
def positional (d : Digits) : List Char × List Char :=
  let whole := d.exponent + 1
  if whole ≤ 0 then (['0'], List.replicate (-whole).toNat '0' ++ d.digits)
  else
    let n := whole.toNat
    (d.digits.take n ++ List.replicate (n - d.digits.length) '0', d.digits.drop n)

/-- The number in positional notation, without a point when it is whole. -/
def plainText (x : Float) : String :=
  let (negative, m) := magnitude x
  let sign := if negative then ['-'] else []
  match m with
  | .notANumber => "NaN"
  | .infinite => String.ofList (sign ++ "inf".toList)
  | .zero => String.ofList (sign ++ ['0'])
  | .finite b =>
    match positional (b.shortest .up) with
    | (whole, []) => String.ofList (sign ++ whole)
    | (whole, part) => String.ofList (sign ++ whole ++ '.' :: part)

/-- The number as data is written: with a point or an exponent, the latter from `10 ^ 16` up and below
`10 ^ -5`, and `null` for what is not a finite number. -/
def dataText (x : Float) : String :=
  let (negative, m) := magnitude x
  let sign := if negative then ['-'] else []
  match m with
  | .notANumber => "null"
  | .infinite => "null"
  | .zero => String.ofList (sign ++ "0.0".toList)
  | .finite b =>
    let d := b.shortest .toEven
    if -5 ≤ d.exponent && d.exponent < 16 then
      let (whole, part) := positional d
      String.ofList (sign ++ whole ++ '.' :: (if part.isEmpty then ['0'] else part))
    else
      let lead := match d.digits with
        | [] => ['0']
        | [c] => [c]
        | c :: rest => c :: '.' :: rest
      let power := Nat.toDigits 10 d.exponent.natAbs
      String.ofList (sign ++ lead ++ 'e' :: (if d.exponent < 0 then '-' else '+') :: power)

end Utterance.Decimal
