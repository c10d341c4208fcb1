import Utterance.Decimal.Nearest

/-!
# Reading numbers

Whole numbers between two bounds, and decimals as the floating point number nearest to them.  The errors
say which rule a text breaks; a text that is too large and also malformed fails at whichever place comes
first.
-/

namespace Utterance.Decimal

def digit? (c : Char) : Option Nat :=
  if '0' ≤ c && c ≤ '9' then some (c.toNat - '0'.toNat) else none

inductive IntError where
  | empty
  | invalidDigit
  | tooLarge
  | tooSmall
deriving DecidableEq, Repr, Inhabited

def IntError.message : IntError → String
  | empty => "cannot parse integer from empty string"
  | invalidDigit => "invalid digit found in string"
  | tooLarge => "number too large to fit in target type"
  | tooSmall => "number too small to fit in target type"

def minInt64 : Int := -9223372036854775808

def maxInt64 : Int := 9223372036854775807

def maxNat64 : Nat := 18446744073709551615

/-- The value lies within the bounds of sixty-four bit integers. -/
def fitsInt64 (n : Int) : Bool := minInt64 ≤ n && n ≤ maxInt64

/-- Appends digits to the number `n`, away from zero, while it stays within `[low, high]`. -/
def readDigits (low high : Int) (negative : Bool) (n : Int) : List Char → Except IntError Int
  | [] => .ok n
  | c :: cs =>
    match digit? c with
    | none => .error .invalidDigit
    | some d =>
      let next := if negative then n * 10 - d else n * 10 + d
      if next < low then .error .tooSmall
      else if high < next then .error .tooLarge
      else readDigits low high negative next cs

/-- Reads a whole number in `[low, high]`, which may have a sign. -/
def readInt (low high : Int) : List Char → Except IntError Int
  | [] => .error .empty
  | ['+'] => .error .invalidDigit
  | ['-'] => .error .invalidDigit
  | '+' :: cs => readDigits low high false 0 cs
  | '-' :: cs => readDigits low high true 0 cs
  | cs => readDigits low high false 0 cs

def readInt64 (cs : List Char) : Except IntError Int := readInt minInt64 maxInt64 cs

/-- The number that a list of digits stands for. -/
def ofDigits (cs : List Char) : Nat := cs.foldl (fun n c => n * 10 + (digit? c).getD 0) 0

inductive FloatError where
  | empty
  | invalid
deriving DecidableEq, Repr, Inhabited

def FloatError.message : FloatError → String
  | empty => "cannot parse float from empty string"
  | invalid => "invalid float literal"

/-- Reads the exponent that may follow the digits of a decimal. -/
def exponent? : List Char → Option Int
  | [] => some 0
  | c :: cs =>
    if c == 'e' || c == 'E' then
      let (negative, cs) := match cs with
        | '-' :: rest => (true, rest)
        | '+' :: rest => (false, rest)
        | _ => (false, cs)
      if cs.isEmpty || cs.any fun c => (digit? c).isNone then none
      else
        let n : Int := ofDigits cs
        some (if negative then -n else n)
    else none

/-- Reads a decimal without sign: digits, of which some stand before or after the point, and perhaps an
exponent. -/
def magnitude? (cs : List Char) : Option Float :=
  let isDigit := fun c => (digit? c).isSome
  let whole := cs.takeWhile isDigit
  let rest := cs.dropWhile isDigit
  let (part, rest) := match rest with
    | '.' :: rest => (rest.takeWhile isDigit, rest.dropWhile isDigit)
    | _ => ([], rest)
  if whole.isEmpty && part.isEmpty then none
  else (exponent? rest).map fun e => ofDecimal (ofDigits (whole ++ part)) (e - part.length)

/-- The names of the numbers that have no digits. -/
def named? (cs : List Char) : Option Float :=
  let name := cs.map Char.toLower
  if name == "inf".toList || name == "infinity".toList then some (1.0 / 0.0)
  else if name == "nan".toList then some (0.0 / 0.0)
  else none

def readFloat : List Char → Except FloatError Float
  | [] => .error .empty
  | c :: cs =>
    let (negative, digits) :=
      if c == '-' then (true, cs) else if c == '+' then (false, cs) else (false, c :: cs)
    match (magnitude? digits).or (named? digits) with
    | none => .error .invalid
    | some x => .ok (if negative then -x else x)

end Utterance.Decimal
