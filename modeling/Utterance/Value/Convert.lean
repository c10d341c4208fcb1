import Utterance.Text.Case
import Utterance.Text.Quoted
import Utterance.Value.Basic
import Utterance.Value.Extract

/-!
# Converters

A converter turns the values said inside an expression, together with the arguments after its own name, into
new values.  Converters are found by name; the built-in ones change types and case, wrap values in objects,
and find numbers, durations and date-times in text.
-/

namespace Utterance

/-- Why a converter has no result: it rejects its values, or a value that it has to show has no text. -/
inductive ConvertError where
  | rejected (message : String)
  | undisplayable
deriving DecidableEq, Repr, Inhabited

abbrev Converter := List Value → List String → Except ConvertError (List Value)

structure Converters where
  entries : List (String × Converter) := []

namespace Converters

def get? (c : Converters) (name : String) : Option Converter := c.entries.lookup name

def contains (c : Converters) (name : String) : Bool := (c.get? name).isSome

def register (c : Converters) (name : String) (f : Converter) : Converters :=
  ⟨(c.entries.filter fun e => e.1 != name) ++ [(name, f)]⟩

def names (c : Converters) : List String :=
  (c.entries.map Prod.fst).mergeSort fun a b => decide (a ≤ b)

end Converters

namespace Convert

def reject {α : Type} (message : String) : Except ConvertError α := .error (.rejected message)

def textOf (v : Value) : Except ConvertError String :=
  match v.display? with
  | some s => .ok s
  | none => .error .undisplayable

def joined (l : List Value) : Except ConvertError String := do
  let texts ← l.mapM textOf
  pure (" ".intercalate texts)

def each (f : Value → Except ConvertError Value) : Converter := fun l _ => l.mapM f

def toInt (v : Value) : Except ConvertError Value :=
  match v with
  | .int n => .ok (.int n)
  | .float x => .ok (.int (Decimal.toInt64 x))
  | .bool b => .ok (.int (if b then 1 else 0))
  | .text s =>
    match Decimal.readInt64 (Text.trim s.toList) with
    | .ok n => .ok (.int n)
    | .error e => reject (s.quoted ++ " is not an integer: " ++ e.message)
  | v => do reject ("cannot convert " ++ (← textOf v) ++ " to an integer")

def toFloat (v : Value) : Except ConvertError Value :=
  match v with
  | .int n => .ok (.float (Decimal.ofInt n))
  | .float x => .ok (.float x)
  | .bool b => .ok (.float (if b then 1 else 0))
  | .text s =>
    match Decimal.readFloat (Text.trim s.toList) with
    | .ok x => .ok (.float x)
    | .error e => reject (s.quoted ++ " is not a number: " ++ e.message)
  | v => do reject ("cannot convert " ++ (← textOf v) ++ " to a float")

/-- Zero is false, and so is any text that reads "false" in small or capital letters. -/
def toBool (v : Value) : Except ConvertError Value :=
  match v with
  | .bool b => .ok (.bool b)
  | .int n => .ok (.bool (n != 0))
  | .float x => .ok (.bool (x != 0))
  | v => do
    let s ← textOf v
    pure (.bool (s.toList.map Char.toLower != "false".toList))

def changeCase (f : String → String) (v : Value) : Except ConvertError Value := do
  pure (.text (f (← textOf v)))

/-- Wraps the values in an object: a single one as it is, and several as one text. -/
def toObject : Converter := fun l _ => do
  let v ← match l with
    | [v] => pure v
    | l => do pure (.text (← joined l))
  pure [.object [("value", v)]]

/-- Adds the argument to objects as the member `key`, unless they have one. -/
def tagObject (key argument : String) (v : Value) : Except ConvertError Value :=
  match v with
  | .object members =>
    if (members.lookup key).isSome then .ok v
    else .ok (.object (Value.insertMember key (.text argument) members))
  | v => do reject (key ++ " expects an object, got " ++ (← textOf v))

def tagObjects (key : String) : Converter := fun l args =>
  match args with
  | [] => reject (key ++ " needs an argument, as in " ++ key ++ ",name")
  | argument :: _ => l.mapM (tagObject key argument)

/-- A number as an integer if it is a whole one of sixty-four bits. -/
def numberValue (x : Float) : Value :=
  if Decimal.isWhole x && x.abs < Decimal.ofNat (Nat.pow 2 63) then .int (Decimal.toInt64 x) else .float x

/-- Finds a value in the text of all values together. -/
def find {α : Type} (what : String) (get? : String → Option α) (wrap : α → Value) : Converter :=
  fun l _ => do
    let s ← joined l
    match get? s with
    | some a => pure [wrap a]
    | none => reject ("no " ++ what ++ " in " ++ s.quoted)

end Convert

open Utterance.Convert in
/-- The built-in converters, which find values with the given extractor. -/
def Converters.builtin (x : Extractor) : Converters :=
  ⟨[("int", each toInt), ("float", each toFloat), ("bool", each toBool),
    ("lower", each (changeCase String.lowerCase)), ("upper", each (changeCase String.upperCase)),
    ("object", toObject), ("kind", tagObjects "kind"), ("unit", tagObjects "unit"),
    ("num", find "number" x.number? numberValue),
    ("duration", find "duration" x.duration? fun d => .duration d.toFloat),
    ("datetime", find "date or time" x.dateTime? .dateTime)]⟩

end Utterance
