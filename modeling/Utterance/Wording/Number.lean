import Utterance.Compile.Table
import Utterance.Decimal.Read
import Utterance.Text.Quoted

/-!
# Numbers in templates

What becomes of words that are numbers.  A word like `1..10` or `0..100,5` becomes a reference to the slot
of number ranges, whose arguments are the bounds and the step, and a whole number may also be heard in
spoken form.  Both are said as an integer: the result goes through the converter `int`.  Words that carry a
suffix stay as they are, and so do numbers that take more than sixty-four bits.
-/

namespace Utterance

abbrev Speller := Int → List String

namespace Number

/-- The slot that holds the numbers of a range. -/
def slotName : String := "mycroft/number"

/-- The converter that makes an integer of what is said. -/
def converter : String := "int"

/-- Cuts a whole number, with or without a minus sign, off the start of a text. -/
def cutInteger? (cs : List Char) : Option (List Char × List Char) :=
  let (sign, cs) := match cs with
    | '-' :: rest => (['-'], rest)
    | _ => ([], cs)
  let isDigit := fun c => (Decimal.digit? c).isSome
  match cs.takeWhile isDigit with
  | [] => none
  | digits => some (sign ++ digits, cs.dropWhile isDigit)

/-- The value of a whole number that fits into sixty-four bits. -/
def value? (cs : List Char) : Option Int :=
  match Decimal.readInt64 cs with
  | .ok n => some n
  | .error _ => none

/-- Reads `lower..upper` or `lower..upper,step`; the step has no sign. -/
def readRange? (cs : List Char) : Option (Int × Int × Int) := do
  let (lower, rest) ← cutInteger? cs
  let rest ← Text.dropStart? "..".toList rest
  let (upper, rest) ← cutInteger? rest
  let step ← match rest with
    | [] => some 1
    | ',' :: digits =>
      if digits.isEmpty || digits.any fun c => (Decimal.digit? c).isNone then none
      else value? digits
    | _ => none
  some (← value? lower, ← value? upper, step)

/-- The name of the slot for a range, with its arguments. -/
def rangeSlot (lower upper step : Int) : String :=
  slotName ++ "," ++ toString lower ++ "," ++ toString upper ++ "," ++ toString step

/-- A range becomes a reference to the slot of its numbers. -/
def rangeAsSlot (text : String) (suffix : Suffix) (tag : Option Tag) : Expr :=
  match if suffix.isEmpty then readRange? text.toList else none with
  | some (lower, upper, step) =>
    .slot text (rangeSlot lower upper step) { converters := [converter] } tag
  | none => .word text suffix tag

def readInteger? (cs : List Char) : Option Int := do
  match ← cutInteger? cs with
  | (digits, []) => value? digits
  | _ => none

/-- The spoken form of a number as a choice beside its digits; none if it adds nothing. -/
def spokenExprs (text : String) : List String → List Expr
  | [] => []
  | [w] => if w == text then [] else [Expr.plain w]
  | ws => [.seq .group (" ".intercalate ws) (ws.map Expr.plain) {} none]

/-- A whole number may be heard as its digits or as its words. -/
def integerOrSpoken (speller : Speller) (text : String) (suffix : Suffix) (tag : Option Tag) :
    Expr :=
  match if suffix.isEmpty then readInteger? text.toList else none with
  | some n =>
    .seq .alternative text (Expr.plain text :: spokenExprs text (speller n))
      { substitution := some [toString n], converters := [converter] } tag
  | none => .word text suffix tag

/-- Why the slot of a range has no values. -/
inductive RangeError where
  | malformed (e : Decimal.IntError)
  | arguments (args : List String)
  | step (n : Int)
deriving DecidableEq, Repr, Inhabited

def RangeError.message : RangeError → String
  | malformed e => e.message
  | arguments args =>
    "invalid number range arguments: [" ++ ", ".intercalate (args.map String.quoted) ++ "]"
  | step n => "number range step must be positive, got " ++ toString n

/-- Puts the numbers `n`, `n + step`, … up to `upper` behind the texts, in decimals.  They end where the next
one would take more than sixty-four bits. -/
def rangeTextsFrom (upper step : Int) (hstep : 0 < step) (n : Int) (texts : Array String) : Array String :=
  if n ≤ upper then
    if Decimal.fitsInt64 (n + step) then
      rangeTextsFrom upper step hstep (n + step) (texts.push (toString n))
    else texts.push (toString n)
  else texts
termination_by (upper + 1 - n).toNat

/-- The numbers `lower`, `lower + step`, … up to `upper`, as decimal texts. -/
def rangeTexts (lower upper step : Int) (hstep : 0 < step) : List String :=
  (rangeTextsFrom upper step hstep lower #[]).toList

/-- The values of the slot of a range: the numbers from the first argument to the second, in steps of the
third, which is one if it is left out. -/
def rangeValues (args : List String) : Except RangeError (List String) := do
  let numbers ← args.mapM fun a =>
    (Decimal.readInt64 (Text.trim a.toList)).mapError RangeError.malformed
  let (lower, upper, step) ← match numbers with
    | [lower, upper] => pure (lower, upper, 1)
    | [lower, upper, step] => pure (lower, upper, step)
    | _ => .error (.arguments args)
  if hstep : 0 < step then pure (rangeTexts lower upper step hstep) else .error (.step step)

end Number

end Utterance
