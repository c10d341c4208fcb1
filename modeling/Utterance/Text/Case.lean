import Utterance.Text.CaseTable
import Utterance.Text.CharClass

/-!
# Upper and lower case of texts

`lower` and `upper` map every script, and may change the number of characters.  The only character whose
image depends on where it stands is the capital sigma: its small form differs at the end of a word, and a
word ends where a cased character stands before and none after, marks and the like passed over.
-/

namespace Utterance.Text

def lowerChar (c : Char) : List Char :=
  if c.toNat == 0x130 then ['i', Char.ofNat 0x307]
  else [Char.ofNat (shiftCase c.toNat lowerRuns)]

def upperChar (c : Char) : List Char :=
  match upperSequences.lookup c.toNat with
  | some image => image.map Char.ofNat
  | none => [Char.ofNat (shiftCase c.toNat upperRuns)]

/-- The first character that counts is cased. -/
def meetsCased (cs : List Char) : Bool :=
  match cs.dropWhile isCaseIgnorable with
  | [] => false
  | c :: _ => isCased c

/-- The small sigma between the characters `before` (nearest first) and `after`. -/
def smallSigma (before after : List Char) : Char :=
  if meetsCased before && !meetsCased after then 'ς' else 'σ'

/-- Lower case of the characters that follow `before`, which is held nearest first. -/
def lowerAfter (before : List Char) : List Char → List Char
  | [] => []
  | c :: cs =>
    (if c == 'Σ' then [smallSigma before cs] else lowerChar c) ++ lowerAfter (c :: before) cs

def lower (cs : List Char) : List Char := lowerAfter [] cs

def upper (cs : List Char) : List Char := cs.flatMap upperChar

end Utterance.Text

namespace String

open Utterance

def lowerCase (s : String) : String := ofList (Text.lower s.toList)

def upperCase (s : String) : String := ofList (Text.upper s.toList)

end String
