/-!
# Base64

Bytes as text: every three bytes become four characters of an alphabet of sixty-four, and a final group
of one or two bytes is filled up with `=`.  `decode` accepts exactly the texts that `encode` produces: the
padding must be there, and the bits that no byte uses must be zero.
-/

namespace Utterance.Text.Base64

def alphabet : List Char :=
  "ABCDEFGHIJKLMNOPQRSTUVWXYZabcdefghijklmnopqrstuvwxyz0123456789+/".toList

/-- The character that stands for the six bits `n`. -/
def digit (n : Nat) : Char := alphabet.getD (n % 64) 'A'

/-- The six bits that a character stands for. -/
def value? (c : Char) : Option Nat := alphabet.idxOf? c

def encode : List UInt8 → List Char
  | [] => []
  | [a] =>
    let n := a.toNat * 16
    [digit (n / 64), digit n, '=', '=']
  | [a, b] =>
    let n := (a.toNat * 256 + b.toNat) * 4
    [digit (n / 4096), digit (n / 64), digit n, '=']
  | a :: b :: c :: rest =>
    let n := (a.toNat * 256 + b.toNat) * 256 + c.toNat
    digit (n / 262144) :: digit (n / 4096) :: digit (n / 64) :: digit n :: encode rest

/-- The byte in the eight bits above the lowest `shift` bits. -/
def byteAt (n shift : Nat) : UInt8 := UInt8.ofNat (n / Nat.pow 2 shift % 256)

def decode : List Char → Option (List UInt8)
  | [] => some []
  | [c, d, '=', '='] => do
    let n := (← value? c) * 64 + (← value? d)
    if n % 16 == 0 then some [byteAt n 4] else none
  | [c, d, e, '='] => do
    let n := ((← value? c) * 64 + (← value? d)) * 64 + (← value? e)
    if n % 4 == 0 then some [byteAt n 10, byteAt n 2] else none
  | c :: d :: e :: f :: rest => do
    let n := (((← value? c) * 64 + (← value? d)) * 64 + (← value? e)) * 64 + (← value? f)
    let bytes ← decode rest
    some (byteAt n 16 :: byteAt n 8 :: byteAt n 0 :: bytes)
  | _ => none

end Utterance.Text.Base64
