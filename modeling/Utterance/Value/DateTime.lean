import Utterance.Decimal.Nearest
import Utterance.Decimal.Read
import Utterance.Decimal.Shortest

/-!
# Dates, times and durations

A `Duration` is a whole number of nanoseconds.  A `DateTime` is a reading of a clock, in nanoseconds since
the beginning of 1970 on that clock, together with how far the clock is ahead of universal time.  Its
calendar date is a function of the reading; arithmetic stays within the years from −9999 to 9999.

There are two written forms: the interchange format of RFC 3339, which has four digits for the year and so
exists only from year 0 to 9999, and a longer one for all date-times.
-/

namespace Utterance

def nanosPerSecond : Nat := 1000000000

structure Duration where
  nanos : Int
deriving DecidableEq, Repr, Inhabited

namespace Duration

def days (n : Int) : Duration := ⟨n * 86400 * nanosPerSecond⟩

/-- The whole seconds, toward zero. -/
def seconds (d : Duration) : Int := d.nanos.tdiv nanosPerSecond

/-- The nanoseconds beyond the whole seconds, with the sign of the duration. -/
def subsecond (d : Duration) : Int := d.nanos.tmod nanosPerSecond

def toFloat (d : Duration) : Float :=
  Decimal.ofInt d.seconds + Decimal.ofInt d.subsecond / Decimal.ofNat nanosPerSecond

/-- The duration nearest to a number of seconds, a tie to the even nanosecond; none if the seconds are
not a number or take more than sixty-four bits. -/
def ofSeconds? (x : Float) : Option Duration :=
  match Decimal.magnitude x with
  | (_, .zero) => some ⟨0⟩
  | (negative, .finite b) =>
    let num := b.significand * Nat.pow 2 b.exponent.toNat
    let den := Nat.pow 2 (-b.exponent).toNat
    if num < Nat.pow 2 63 * den || (negative && num == Nat.pow 2 63 * den) then
      let n : Int := Decimal.roundQuotient (num * nanosPerSecond) den
      some ⟨if negative then -n else n⟩
    else none
  | _ => none

end Duration

/-! ## The calendar -/

structure Date where
  year : Int
  month : Nat
  day : Nat
deriving DecidableEq, Repr, Inhabited

namespace Date

/-- The number of days from the first day of 1970 on.  Years are counted from March, so that a leap day is
the last of its year, in eras of four hundred years, all of one length. -/
def toDays (d : Date) : Int :=
  let y := if d.month ≤ 2 then d.year - 1 else d.year
  let era := y.fdiv 400
  let yearOfEra := (y - era * 400).toNat
  let monthFromMarch := (d.month + 9) % 12
  let dayOfYear := (153 * monthFromMarch + 2) / 5 + d.day - 1
  let dayOfEra := yearOfEra * 365 + yearOfEra / 4 - yearOfEra / 100 + dayOfYear
  era * 146097 + dayOfEra - 719468

/-- The date of a day counted from the first day of 1970. -/
def ofDays (n : Int) : Date :=
  let z := n + 719468
  let era := z.fdiv 146097
  let dayOfEra := (z - era * 146097).toNat
  let yearOfEra := (dayOfEra - dayOfEra / 1460 + dayOfEra / 36524 - dayOfEra / 146096) / 365
  let dayOfYear := dayOfEra - (365 * yearOfEra + yearOfEra / 4 - yearOfEra / 100)
  let monthFromMarch := (5 * dayOfYear + 2) / 153
  let day := dayOfYear - (153 * monthFromMarch + 2) / 5 + 1
  let month := if monthFromMarch < 10 then monthFromMarch + 3 else monthFromMarch - 9
  let year := era * 400 + yearOfEra
  ⟨if month ≤ 2 then year + 1 else year, month, day⟩

def isLeapYear (y : Int) : Bool := y % 4 == 0 && (y % 100 != 0 || y % 400 == 0)

def daysInMonth (year : Int) (month : Nat) : Nat :=
  if month == 2 then if isLeapYear year then 29 else 28
  else if month == 4 || month == 6 || month == 9 || month == 11 then 30
  else 31

def isValid (d : Date) : Bool :=
  1 ≤ d.month && d.month ≤ 12 && 1 ≤ d.day && d.day ≤ daysInMonth d.year d.month

end Date

structure DateTime where
  /-- The reading of the clock, in nanoseconds. -/
  clock : Int
  /-- How many seconds the clock is ahead of universal time. -/
  offset : Int
deriving DecidableEq, Repr, Inhabited

namespace DateTime

def nanosPerDay : Int := 86400 * nanosPerSecond

/-- The date-time of a moment, in seconds of universal time since 1970, on a clock with that offset. -/
def ofUnix (seconds offset : Int) : DateTime := ⟨(seconds + offset) * nanosPerSecond, offset⟩

def day (t : DateTime) : Int := t.clock.fdiv nanosPerDay

def date (t : DateTime) : Date := Date.ofDays t.day

def timeOfDay (t : DateTime) : Nat := (t.clock.fmod nanosPerDay).toNat

def hour (t : DateTime) : Nat := t.timeOfDay / nanosPerSecond / 3600

def minute (t : DateTime) : Nat := t.timeOfDay / nanosPerSecond / 60 % 60

def second (t : DateTime) : Nat := t.timeOfDay / nanosPerSecond % 60

def nanosecond (t : DateTime) : Nat := t.timeOfDay % nanosPerSecond

def inRange (t : DateTime) : Bool :=
  (Date.toDays ⟨-9999, 1, 1⟩) ≤ t.day && t.day ≤ (Date.toDays ⟨9999, 12, 31⟩)

def add? (t : DateTime) (d : Duration) : Option DateTime :=
  let later : DateTime := { t with clock := t.clock + d.nanos }
  if later.inRange then some later else none

def sub? (t : DateTime) (d : Duration) : Option DateTime := t.add? ⟨-d.nanos⟩

/-- The full hour of that number on the same day. -/
def atHour (t : DateTime) (hour : Nat) : DateTime :=
  { t with clock := t.day * nanosPerDay + hour * 3600 * nanosPerSecond }

/-! ## Written forms -/

/-- A number with zeros in front up to that width. -/
def padded (width n : Nat) : String :=
  let digits := Nat.toDigits 10 n
  String.ofList (List.replicate (width - digits.length) '0' ++ digits)

/-- The digits of a fraction of a second, without the zeros at its end. -/
def fractionDigits (nanos : Nat) : List Char :=
  ((padded 9 nanos).toList.reverse.dropWhile (· == '0')).reverse

/-- The offset as hours and minutes, with its sign. -/
def offsetText (offset : Int) : String :=
  let n := offset.natAbs
  (if offset < 0 then "-" else "+") ++ padded 2 (n / 3600) ++ ":" ++ padded 2 (n / 60 % 60)

/-- The interchange format has room for the year and the offset. -/
def hasShortForm (t : DateTime) : Bool :=
  0 ≤ t.date.year && t.date.year ≤ 9999 && t.offset.natAbs < 86400 && t.offset % 60 == 0

/-- The text in interchange format. -/
def shortText? (t : DateTime) : Option String :=
  if t.hasShortForm then
    let d := t.date
    let fraction := fractionDigits t.nanosecond
    some <| padded 4 d.year.toNat ++ "-" ++ padded 2 d.month ++ "-" ++ padded 2 d.day ++ "T" ++
      padded 2 t.hour ++ ":" ++ padded 2 t.minute ++ ":" ++ padded 2 t.second ++
      String.ofList (if fraction.isEmpty then [] else '.' :: fraction) ++
      if t.offset == 0 then "Z" else offsetText t.offset
  else none

/-- The text in the form that every date-time has. -/
def longText (t : DateTime) : String :=
  let d := t.date
  let fraction := fractionDigits t.nanosecond
  (if d.year < 0 then "-" else "") ++ padded 4 d.year.natAbs ++ "-" ++ padded 2 d.month ++ "-" ++
    padded 2 d.day ++ " " ++ toString t.hour ++ ":" ++ padded 2 t.minute ++ ":" ++
    padded 2 t.second ++ "." ++ String.ofList (if fraction.isEmpty then ['0'] else fraction) ++ " " ++
    offsetText t.offset ++ ":" ++ padded 2 (t.offset.natAbs % 60)

/-- The text in interchange format, or in the longer form where that does not exist. -/
def text (t : DateTime) : String := t.shortText?.getD t.longText

/-! ## Reading the interchange format -/

/-- Reads a number of exactly `n` digits. -/
def readDigits? (n : Nat) (cs : List Char) : Option (Nat × List Char) :=
  let digits := cs.take n
  if digits.length == n && digits.all fun c => (Decimal.digit? c).isSome then
    some (Decimal.ofDigits digits, cs.drop n)
  else none

def readChar? (c : Char) : List Char → Option (List Char)
  | d :: rest => if d == c then some rest else none
  | [] => none

/-- Reads the character between date and time: any ASCII character but a digit. -/
def readSeparator? : List Char → Option (List Char)
  | c :: rest => if c.toNat < 128 && (Decimal.digit? c).isNone then some rest else none
  | [] => none

/-- Reads a fraction of a second, as nanoseconds; digits after the ninth do not count. -/
def readFraction? : List Char → Option (Nat × List Char)
  | '.' :: rest =>
    let isDigit := fun c => (Decimal.digit? c).isSome
    match rest.takeWhile isDigit with
    | [] => none
    | digits =>
      let kept := digits.take 9
      some (Decimal.ofDigits kept * Nat.pow 10 (9 - kept.length), rest.dropWhile isDigit)
  | cs => some (0, cs)

/-- Reads an offset to the end of the text, in seconds. -/
def readOffset? : List Char → Option Int
  | ['Z'] => some 0
  | ['z'] => some 0
  | c :: rest => do
    let negative ← if c == '-' then some true else if c == '+' then some false else none
    let (hours, rest) ← readDigits? 2 rest
    let rest ← readChar? ':' rest
    let (minutes, rest) ← readDigits? 2 rest
    let n : Int := hours * 3600 + minutes * 60
    if rest.isEmpty && hours < 24 && minutes < 60 then some (if negative then -n else n) else none
  | [] => none

/-- The moment is the last nanosecond of a month of universal time, which stands in for a leap second. -/
def endsMonth (t : DateTime) : Bool :=
  let u : DateTime := ⟨t.clock - t.offset * nanosPerSecond, 0⟩
  u.timeOfDay + 1 == 86400 * nanosPerSecond && u.date.day == Date.daysInMonth u.date.year u.date.month

def read? (cs : List Char) : Option DateTime := do
  let (year, rest) ← readDigits? 4 cs
  let rest ← readChar? '-' rest
  let (month, rest) ← readDigits? 2 rest
  let rest ← readChar? '-' rest
  let (day, rest) ← readDigits? 2 rest
  let rest ← readSeparator? rest
  let (hour, rest) ← readDigits? 2 rest
  let rest ← readChar? ':' rest
  let (minute, rest) ← readDigits? 2 rest
  let rest ← readChar? ':' rest
  let (second, rest) ← readDigits? 2 rest
  let (fraction, rest) ← readFraction? rest
  let offset ← readOffset? rest
  let date : Date := ⟨year, month, day⟩
  let isLeap := second == 60
  let (second, fraction) := if isLeap then (59, nanosPerSecond - 1) else (second, fraction)
  if !date.isValid || 24 ≤ hour || 60 ≤ minute || 60 ≤ second then none
  else
    let time : Int := ((hour * 60 + minute) * 60 + second) * nanosPerSecond + fraction
    let t : DateTime := ⟨date.toDays * nanosPerDay + time, offset⟩
    if isLeap && !t.endsMonth then none else some t

end DateTime

end Utterance
