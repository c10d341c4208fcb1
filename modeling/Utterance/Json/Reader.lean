import Utterance.Json.Basic
import Utterance.Decimal.Read

/-!
# Reading JSON text

A reader for whole texts and one for the value at the start of a text.  Whole numbers of sixty-four bits
stay exact.  Any other number keeps as many leading digits as fit into sixty-four bits and is then
multiplied or divided by a power of ten, once, so the result can be a neighbour of the nearest
floating point number; a number beyond the largest becomes infinite, which no typed reader accepts.
-/

namespace Utterance.Json

def isSpace (c : Char) : Bool := c == ' ' || c == '\n' || c == '\t' || c == '\r'

def skipSpaces (cs : List Char) : List Char := cs.dropWhile isSpace

/-- Appends digits to `n` as long as the number fits into sixty-four bits; also the digits left over. -/
def keepDigits (n : Nat) : List Char → Nat × List Char
  | [] => (n, [])
  | c :: cs =>
    let next := n * 10 + (Decimal.digit? c).getD 0
    if Decimal.maxNat64 < next then (n, c :: cs) else keepDigits next cs

def tenTo (k : Nat) : Float := Decimal.ofNat (Nat.pow 10 k)

/-- `x · 10 ^ e`, in steps of at most three hundred and eight decimal places. -/
def scaleByTen : Nat → Float → Int → Float
  | 0, _, _ => 0
  | steps + 1, x, e =>
    if 0 ≤ e then if e ≤ 308 then x * tenTo e.toNat else if x == 0 then 0 else 1.0 / 0.0
    else if -308 ≤ e then x / tenTo (-e).toNat
    else scaleByTen steps (x / tenTo 308) (e + 308)

/-- The value of a number with a point, an exponent or too many digits. -/
def floatOf (negative : Bool) (whole part : List Char) (exponent : Int) : Json :=
  let (n, left) := keepDigits 0 whole
  let (n, unused) := keepDigits n part
  let used : Int := part.length - unused.length
  let x := scaleByTen 4 (Decimal.ofNat n) (exponent + left.length - used)
  float (if negative then -x else x)

def integerOf (negative : Bool) (whole : List Char) : Json :=
  let n := Decimal.ofDigits whole
  if Decimal.maxNat64 < n then floatOf negative whole [] 0
  else if !negative then int n
  else if n == 0 || Nat.pow 2 63 < n then float (-Decimal.ofNat n)
  else int (-n)

def readPart? (cs : List Char) : Option (List Char × List Char) :=
  match cs.span Char.isDigit with
  | ([], _) => none
  | r => some r

def readExponent? (cs : List Char) : Option (Int × List Char) :=
  let (negative, cs) := match cs with
    | '-' :: rest => (true, rest)
    | '+' :: rest => (false, rest)
    | _ => (false, cs)
  match cs.span Char.isDigit with
  | ([], _) => none
  | (digits, rest) =>
    let n : Int := Decimal.ofDigits digits
    some (if negative then -n else n, rest)

def readMagnitude? (negative : Bool) (cs : List Char) : Option (Json × List Char) := do
  let (whole, rest) ← match cs with
    | '0' :: rest => if rest.head?.any Char.isDigit then none else some (['0'], rest)
    | _ => readPart? cs
  let (part, rest) ← match rest with
    | '.' :: rest => (readPart? rest).map fun (part, rest) => (some part, rest)
    | _ => some (none, rest)
  let (exponent, rest) ← match rest with
    | 'e' :: rest => (readExponent? rest).map fun (e, rest) => (some e, rest)
    | 'E' :: rest => (readExponent? rest).map fun (e, rest) => (some e, rest)
    | _ => some (none, rest)
  if part.isNone && exponent.isNone then some (integerOf negative whole, rest)
  else some (floatOf negative whole (part.getD []) (exponent.getD 0), rest)

def hexValue? (c : Char) : Option Nat :=
  if c.isDigit then some (c.toNat - '0'.toNat)
  else if 'a' ≤ c && c ≤ 'f' then some (c.toNat - 'a'.toNat + 10)
  else if 'A' ≤ c && c ≤ 'F' then some (c.toNat - 'A'.toNat + 10)
  else none

/-- The number that four hexadecimal digits stand for. -/
def hexValues? (a b c d : Char) : Option Nat := do
  some ((((← hexValue? a) * 16 + (← hexValue? b)) * 16 + (← hexValue? c)) * 16 + (← hexValue? d))

def isHighHalf (n : Nat) : Bool := 0xD800 ≤ n && n < 0xDC00

def isLowHalf (n : Nat) : Bool := 0xDC00 ≤ n && n < 0xE000

/-- The character that an escape of one letter stands for. -/
def shortEscape? (c : Char) : Option Char :=
  if c == '"' || c == '\\' || c == '/' then some c
  else if c == 'n' then some '\n'
  else if c == 'r' then some '\r'
  else if c == 't' then some '\t'
  else if c == 'b' then some '\x08'
  else if c == 'f' then some '\x0c'
  else none

/-- Reads a text after its opening quote.  `done` holds what has been read, newest first.  The halves of a
code point that is written as two must both be there. -/
def readText? (done : List Char) : List Char → Option (List Char × List Char)
  | [] => none
  | '"' :: rest => some (done.reverse, rest)
  | '\\' :: 'u' :: a :: b :: c :: d :: rest => do
    let n ← hexValues? a b c d
    if isLowHalf n then none
    else if isHighHalf n then
      match rest with
      | '\\' :: 'u' :: e :: f :: g :: h :: rest => do
        let low ← hexValues? e f g h
        if isLowHalf low then
          readText? (Char.ofNat (0x10000 + (n - 0xD800) * 0x400 + (low - 0xDC00)) :: done) rest
        else none
      | _ => none
    else readText? (Char.ofNat n :: done) rest
  | '\\' :: c :: rest => do
    let c ← shortEscape? c
    readText? (c :: done) rest
  | c :: rest => if c.toNat < 32 || c == '\\' then none else readText? (c :: done) rest

/-- What follows a word at the start of the text. -/
def readWord? (word : String) (value : Json) (cs : List Char) : Option (Json × List Char) :=
  let w := word.toList
  if w.isPrefixOf cs then some (value, cs.drop w.length) else none

mutual

/-- Reads the value at the start of a text.  The first argument bounds the number of steps. -/
def readValue? : Nat → List Char → Option (Json × List Char)
  | 0, _ => none
  | n + 1, cs =>
    match skipSpaces cs with
    | '"' :: rest => (readText? [] rest).map fun (s, rest) => (text (String.ofList s), rest)
    | '[' :: rest =>
      match skipSpaces rest with
      | ']' :: rest => some (array [], rest)
      | _ => readItems? n [] rest
    | '\x7b' :: rest =>
      match skipSpaces rest with
      | '\x7d' :: rest => some (object [], rest)
      | _ => readMembers? n [] rest
    | 't' :: rest => readWord? "true" (bool true) ('t' :: rest)
    | 'f' :: rest => readWord? "false" (bool false) ('f' :: rest)
    | 'n' :: rest => readWord? "null" null ('n' :: rest)
    | '-' :: rest => readMagnitude? true rest
    | rest => readMagnitude? false rest

/-- Reads the items of an array up to its closing bracket; `done` holds those before, newest first. -/
def readItems? : Nat → List Json → List Char → Option (Json × List Char)
  | 0, _, _ => none
  | n + 1, done, cs => do
    let (v, rest) ← readValue? n cs
    match skipSpaces rest with
    | ',' :: rest => readItems? n (v :: done) rest
    | ']' :: rest => some (array (v :: done).reverse, rest)
    | _ => none

/-- Reads the members of an object up to its closing brace; `done` holds those before, newest first. -/
def readMembers? : Nat → List (String × Json) → List Char → Option (Json × List Char)
  | 0, _, _ => none
  | n + 1, done, cs =>
    match skipSpaces cs with
    | '"' :: rest => do
      let (key, rest) ← readText? [] rest
      match skipSpaces rest with
      | ':' :: rest => do
        let (v, rest) ← readValue? n rest
        let done := (String.ofList key, v) :: done
        match skipSpaces rest with
        | ',' :: rest => readMembers? n done rest
        | '\x7d' :: rest => some (object done.reverse, rest)
        | _ => none
      | _ => none
    | _ => none

end

/-- Reads the value at the start of a text and what follows it. -/
def readFirst? (s : String) : Option (Json × List Char) :=
  let cs := s.toList
  readValue? (2 * cs.length + 2) cs

/-- Reads a text that is one value, with nothing but spaces after it. -/
def read? (s : String) : Option Json :=
  match readFirst? s with
  | some (v, rest) => if (skipSpaces rest).isEmpty then some v else none
  | none => none

mutual

/-- How deep arrays and objects are nested. -/
def depth : Json → Nat
  | array items => depthOfItems items + 1
  | object members => depthOfMembers members + 1
  | _ => 0

def depthOfItems : List Json → Nat
  | [] => 0
  | v :: rest => max (depth v) (depthOfItems rest)

def depthOfMembers : List (String × Json) → Nat
  | [] => 0
  | (_, v) :: rest => max (depth v) (depthOfMembers rest)

end

mutual

/-- No number in the data is too large. -/
def isFinite : Json → Bool
  | float x => x.isFinite
  | array items => areFinite items
  | object members => haveFinite members
  | _ => true

def areFinite : List Json → Bool
  | [] => true
  | v :: rest => isFinite v && areFinite rest

def haveFinite : List (String × Json) → Bool
  | [] => true
  | (_, v) :: rest => isFinite v && haveFinite rest

end

/-! ## Typed access -/

def asText? : Json → Option String
  | text s => some s
  | _ => none

def asBool? : Json → Option Bool
  | bool b => some b
  | _ => none

/-- A natural number; a reader of sixty-four bit numbers yields no larger ones. -/
def asNat? : Json → Option Nat
  | int n => if 0 ≤ n then some n.toNat else none
  | _ => none

def asFloat? : Json → Option Float
  | int n => some (Decimal.ofInt n)
  | float x => if x.isFinite then some x else none
  | _ => none

def asArray? : Json → Option (List Json)
  | array items => some items
  | _ => none

/-- The member of that name, `null` when there is none. -/
def member (key : String) : Json → Json
  | object members => (members.lookup key).getD null
  | _ => null

/-- The fields of a record, in the order of `names`, from an object, in which they may stand in any order
among other members but only once, or from an array, in which they stand in order and the last may be
missing. -/
def fields? (names : List String) : Json → Option (List (Option Json))
  | object members =>
    if names.any fun name => 1 < members.countP fun m => m.1 == name then none
    else some (names.map fun name => members.lookup name)
  | array items =>
    if names.length < items.length then none
    else some (items.map some ++ List.replicate (names.length - items.length) none)
  | _ => none

/-- A field that may be missing. -/
def orDefault {α : Type} (default : α) (read : Json → Option α) : Option Json → Option α
  | none => some default
  | some v => read v

/-- A field that may be missing or null. -/
def optional {α : Type} (read : Json → Option α) : Option Json → Option (Option α)
  | none => some none
  | some null => some none
  | some v => (read v).map some

end Utterance.Json
