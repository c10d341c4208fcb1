import Utterance.Json.Reader
import Utterance.Text.Blank
import Utterance.Value.DateTime

/-!
# Values

What recognized words are worth: truth values, numbers, durations, date-times, texts, and objects with
named members.  Every value but one has a text: an object that holds a date-time without interchange format
has none, because objects are shown as JSON.
-/

namespace Utterance

inductive Value where
  | bool (b : Bool)
  /-- A whole number of sixty-four bits. -/
  | int (n : Int)
  | float (x : Float)
  | duration (seconds : Float)
  | dateTime (t : DateTime)
  | text (s : String)
  /-- The names of the members ascend. -/
  | object (members : List (String × Value))
deriving Repr, Inhabited

namespace Value

mutual

/-- The value as data; none if a date-time in it has no interchange format. -/
def toJson? : Value → Option Json
  | bool b => some (.bool b)
  | int n => some (.int n)
  | float x => some (.float x)
  | duration s => some (.object [("seconds", .float s)])
  | dateTime t => t.shortText?.map .text
  | text s => some (.text s)
  | object members => (membersJson? members).map .object

def membersJson? : List (String × Value) → Option (List (String × Json))
  | [] => some []
  | (k, v) :: rest => do
    let j ← toJson? v
    let more ← membersJson? rest
    some ((k, j) :: more)

end

def display? : Value → Option String
  | bool b => some (if b then "true" else "false")
  | int n => some (toString n)
  | float x => some (Decimal.plainText x)
  | duration s => some (Decimal.plainText s ++ "s")
  | dateTime t => some t.text
  | text s => some s
  | object members => (toJson? (object members)).map Json.render

def asText? : Value → Option String
  | text s => some s
  | _ => none

def asInt? : Value → Option Int
  | int n => some n
  | _ => none

def asFloat? : Value → Option Float
  | int n => some (Decimal.ofInt n)
  | float x => some x
  | _ => none

/-- Puts a member into an ascending list, in the place of the one of its name. -/
def insertMember (k : String) (v : Value) : List (String × Value) → List (String × Value)
  | [] => [(k, v)]
  | (k', v') :: rest =>
    if k < k' then (k, v) :: (k', v') :: rest
    else if k == k' then (k, v) :: rest
    else (k', v') :: insertMember k v rest

/-- The seconds of an object that is a duration: it has one member of that name, which is a number. -/
def secondsOf? (members : List (String × Json)) : Option Float :=
  match members.filter fun m => m.1 == "seconds" with
  | [(_, v)] => v.asFloat?
  | _ => none

mutual

/-- Reads a value from data.  A text in interchange format is a date-time; of members with one name the
last counts. -/
def ofJson? : Json → Option Value
  | .null => none
  | .bool b => some (bool b)
  | .int n => some (if Decimal.fitsInt64 n then int n else float (Decimal.ofInt n))
  | .float x => some (float x)
  | .text s =>
    match DateTime.read? s.toList with
    | some t => some (dateTime t)
    | none => some (text s)
  | .array _ => none
  | .object members =>
    match secondsOf? members with
    | some s => some (duration s)
    | none => (membersOf? [] members).map object

def membersOf? (done : List (String × Value)) :
    List (String × Json) → Option (List (String × Value))
  | [] => some done
  | (k, j) :: rest => do
    let v ← ofJson? j
    membersOf? (insertMember k v done) rest

end

/-- How deep the data of a value may be nested. -/
def maxDepth : Nat := 127

def parse? (s : String) : Option Value := do
  let v ← Json.read? s
  if v.depth ≤ maxDepth && v.isFinite then ofJson? v else none

end Value

end Utterance
