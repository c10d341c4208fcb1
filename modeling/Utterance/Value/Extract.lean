import Utterance.Decimal.Whole
import Utterance.Text.Blank
import Utterance.Text.Case
import Utterance.Value.DateTime

/-!
# Values in English text

Numbers in digits or words, durations like "five minutes", and dates like "tomorrow at noon" or "in two
hours", which are relative to a given moment.  All readers work on lists of words: lower case, without
punctuation around them.
-/

namespace Utterance

/-- Finds values in recognized text. -/
structure Extractor where
  number? : String → Option Float
  duration? : String → Option Duration
  dateTime? : String → Option DateTime

namespace English

/-- A word in lower case, without punctuation around it. -/
def bareWord (w : List Char) : List Char :=
  Text.lower (Text.dropAround (fun c => !(Text.isAlphanumeric c || c == '.' || c == '-')) w)

def extractWords (s : String) : List String :=
  ((Text.words s.toList).map bareWord).filter (!·.isEmpty) |>.map String.ofList

/-- The words for the numbers that have a word of their own. -/
def smallNumbers : List (String × Nat) :=
  [("zero", 0), ("one", 1), ("a", 1), ("an", 1), ("two", 2), ("three", 3), ("four", 4), ("five", 5),
    ("six", 6), ("seven", 7), ("eight", 8), ("nine", 9), ("ten", 10), ("eleven", 11), ("twelve", 12),
    ("thirteen", 13), ("fourteen", 14), ("fifteen", 15), ("sixteen", 16), ("seventeen", 17),
    ("eighteen", 18), ("nineteen", 19), ("twenty", 20), ("thirty", 30), ("forty", 40), ("fifty", 50),
    ("sixty", 60), ("seventy", 70), ("eighty", 80), ("ninety", 90)]

def smallNumber? (w : String) : Option Nat := smallNumbers.lookup w

/-- The words for powers of ten. -/
def scaleWords : List (String × Nat) :=
  [("hundred", 100), ("thousand", 1000), ("million", 1000000), ("billion", 1000000000)]

def scale? (w : String) : Option Nat := scaleWords.lookup w

/-- A natural number, if it takes no more than sixty-four bits. -/
def fit64? (n : Nat) : Option Nat := if n ≤ Decimal.maxNat64 then some n else none

/-- A number while it is being read: the part above the current group, the group, whether there has been
a word of the number, and how many words have been read. -/
structure NumberReader where
  total : Nat := 0
  current : Nat := 0
  started : Bool := false
  used : Nat := 0
deriving Repr, Inhabited

/-- Reads one word of a number.  The outer option fails if the number becomes too large; the inner one is
none if the word does not go on with the number. -/
def NumberReader.step (r : NumberReader) (w : String) : Option (Option NumberReader) :=
  match smallNumber? w with
  | some n =>
    if (w == "a" || w == "an") && r.started then some none
    else do
      let current ← fit64? (r.current + n)
      some (some { r with current, started := true, used := r.used + 1 })
  | none =>
    match scale? w with
    | some s =>
      if !r.started then some none
      else if s == 100 then do
        let current ← fit64? (max r.current 1 * 100)
        some (some { r with current, used := r.used + 1 })
      else do
        let group ← fit64? (max r.current 1 * s)
        let total ← fit64? (r.total + group)
        some (some { r with total, current := 0, used := r.used + 1 })
    | none =>
      if w == "and" && r.started then some (some { r with used := r.used + 1 }) else some none

/-- Reads the words of a number as far as they go on with it; none if it becomes too large. -/
def NumberReader.run (r : NumberReader) : List String → Option NumberReader
  | [] => some r
  | w :: rest => do
    match ← r.step w with
    | some r => r.run rest
    | none => some r

/-- The digits that words after "point" stand for. -/
def fractionWords (ws : List String) : List Nat :=
  match ws with
  | [] => []
  | w :: rest =>
    match smallNumber? w with
    | some n => if n < 10 then n :: fractionWords rest else []
    | none => []

/-- The digits of the fraction that the words begin with. -/
def fractionAt (ws : List String) : List Nat :=
  match ws with
  | "point" :: rest => fractionWords rest
  | _ => []

/-- The word starts like a number in digits. -/
def startsNumeral (w : String) : Bool :=
  match w.toList with
  | c :: _ => (Decimal.digit? c).isSome || c == '-' || c == '.'
  | [] => false

/-- Reads a number in words from the start of the list, with a sign word before it or not.  Also says how
many words it takes. -/
def spokenNumber? (ws : List String) : Option (Float × Nat) := do
  let (sign, signUsed, ws) : Float × Nat × List String := match ws with
    | w :: rest => if w == "minus" || w == "negative" then (-1, 1, rest) else (1, 0, ws)
    | [] => (1, 0, ws)
  let r ← NumberReader.run {} ws
  if !r.started then none
  else
    let whole := Decimal.ofNat (← fit64? (r.total + r.current))
    let digits := fractionAt (ws.drop r.used)
    let used := signUsed + r.used
    if digits.isEmpty then some (sign * whole, used)
    else
      let fraction := Decimal.ofDecimal (digits.foldl (fun n d => n * 10 + d) 0) (-digits.length)
      some (sign * (whole + fraction), used + 1 + digits.length)

/-- Reads a number from the start of the list.  Also says how many words it takes. -/
def numberAt? (ws : List String) : Option (Float × Nat) :=
  match ws with
  | [] => none
  | w :: _ =>
    match if startsNumeral w then Decimal.readFloat w.toList else .error .invalid with
    | .ok x => if x.isFinite then some (x, 1) else none
    | .error _ => spokenNumber? ws

/-- The seconds in a unit of time, in singular or plural. -/
def unitSeconds? (w : String) : Option Float :=
  let cs := w.toList
  let unit := String.ofList (if cs.getLast? == some 's' then cs.dropLast else cs)
  if unit == "second" || unit == "sec" then some 1
  else if unit == "minute" || unit == "min" then some 60
  else if unit == "hour" || unit == "hr" then some 3600
  else if unit == "day" then some 86400
  else if unit == "week" then some 604800
  else none

/-- The unit at a place of the list. -/
def unitAt? (ws : List String) (n : Nat) : Option Float := ws[n]?.bind unitSeconds?

/-- The seconds that a pair of number and unit at the start of the list stands for, and how many words it
takes.  Half a unit may have a word in between, as in "half an hour". -/
def secondsAt? (ws : List String) : Option (Float × Nat) :=
  let half : Option (Float × Nat) :=
    if ws.head? == some "half" then
      match unitAt? ws 1 with
      | some u => some (u / 2, 2)
      | none => (unitAt? ws 2).map fun u => (u / 2, 3)
    else none
  match half with
  | some r => some r
  | none => do
    let (n, used) ← numberAt? ws
    let u ← unitAt? ws used
    some (n * u, used + 1)

/-- Adds up all pairs of number and unit; none if there is no pair. -/
def sumSeconds (sum : Option Float) (ws : List String) : Option Float :=
  match ws with
  | [] => sum
  | w :: rest =>
    match secondsAt? (w :: rest) with
    | some (s, used) => sumSeconds (some (sum.getD 0 + s)) (rest.drop (used - 1))
    | none => sumSeconds sum rest
termination_by ws.length
decreasing_by all_goals simp only [List.length_drop, List.length_cons]; omega

/-- The duration that all pairs of number and unit add up to. -/
def durationIn? (ws : List String) : Option Duration :=
  (sumSeconds none ws).bind Duration.ofSeconds?

/-- The first number in the list. -/
def firstNumber? : List String → Option Float
  | [] => none
  | w :: rest =>
    match numberAt? (w :: rest) with
    | some (x, _) => some x
    | none => firstNumber? rest

/-- An hour of the day after "at": noon, midnight, or a number with or without "pm" or "am". -/
def hourOfDay? (ws : List String) : Option Nat :=
  match ws.dropWhile (· != "at") with
  | [] => none
  | _ :: "noon" :: _ => some 12
  | _ :: "midnight" :: _ => some 0
  | _ :: rest => do
    let (x, used) ← numberAt? rest
    if x < 0 || 24 ≤ x then none
    else
      let hour := (Decimal.toInt64 x).toNat
      let after := rest.drop used
      let after := if after.head? == some "o'clock" then after.drop 1 else after
      let isPm := after.head?.any fun w => w == "pm" || w == "p.m."
      let isAm := after.head?.any fun w => w == "am" || w == "a.m."
      some (if isPm && hour < 12 then hour + 12 else if isAm && hour == 12 then 0 else hour)

/-- The day that a word means, given the words before it, nearest first, and after it. -/
def dayAt? (anchor : DateTime) (before : List String) (w : String) (after : List String) :
    Option DateTime :=
  if w == "now" || w == "today" || w == "tonight" then some anchor
  else if w == "tomorrow" then anchor.add? (.days 1)
  else if w == "yesterday" then anchor.sub? (.days 1)
  else if w == "in" then (durationIn? after).bind anchor.add?
  else if w == "ago" then (durationIn? before.reverse).bind anchor.sub?
  else none

/-- The first day that a word of the list means. -/
def firstDay? (anchor : DateTime) (before : List String) : List String → Option DateTime
  | [] => none
  | w :: rest =>
    match dayAt? anchor before w rest with
    | some t => some t
    | none => firstDay? anchor (w :: before) rest

/-- The date-time that the words mean.  An hour without a day is the next such hour. -/
def dateTimeIn? (anchor : DateTime) (ws : List String) : Option DateTime :=
  match firstDay? anchor [] ws, hourOfDay? ws with
  | some t, some hour => some (t.atHour hour)
  | none, some hour =>
    let today := anchor.atHour hour
    if today.clock < anchor.clock then today.add? (.days 1) else some today
  | day, none => day

/-- Reads English text, with dates relative to `anchor`. -/
def extractor (anchor : DateTime) : Extractor where
  number? s := firstNumber? (extractWords s)
  duration? s := durationIn? (extractWords s)
  dateTime? s := dateTimeIn? anchor (extractWords s)

end English

end Utterance
