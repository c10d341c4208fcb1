import Utterance.Recognize
import Utterance.Train
import Utterance.Yaml.Node

/-!
# Settings in YAML

Settings are mappings, in which every field may be missing, and names that are no field's are ignored; a
field that is there twice is an error.  Truth values and numbers have to be plain scalars, while a text may be
any scalar.
-/

namespace Utterance

namespace Yaml.Node

/-- The scalar is plain, or a literal block that is marked as being of the type. -/
def isBare (type : String) (style : Style) (tag : Option String) : Bool :=
  style == .plain || (style == .literal && tag == some ("tag:yaml.org,2002:" ++ type))

def asText? : Node → Option String
  | scalar text _ _ => some text
  | _ => none

def asBool? : Node → Option Bool
  | scalar text style tag =>
    if !isBare "bool" style tag then none
    else if ["true", "True", "TRUE"].contains text then some true
    else if ["false", "False", "FALSE"].contains text then some false
    else none
  | _ => none

/-- Reads digits of a base as a number of sixty-four bits. -/
def natOf? (base : Nat) (digits : List Char) : Option Nat := do
  if digits.isEmpty then none
  else
    let values ← digits.mapM hexDigit?
    let n := values.foldl (fun n d => n * base + d) 0
    if values.all (· < base) && n ≤ Decimal.maxNat64 then some n else none

/-- Reads the text of a number, which has a base of sixteen, eight or two if it starts with a zero and a
letter; a number of base ten does not start with a zero. -/
def readNat? (cs : List Char) : Option Nat :=
  let cs := if cs.head? == some '+' then cs.tail else cs
  match cs with
  | '0' :: 'x' :: digits => natOf? 16 digits
  | '0' :: 'o' :: digits => natOf? 8 digits
  | '0' :: 'b' :: digits => natOf? 2 digits
  | '0' :: _ :: _ => none
  | digits => natOf? 10 digits

def asNat? : Node → Option Nat
  | scalar text style tag => if isBare "int" style tag then readNat? text.toList else none
  | _ => none

/-- An empty plain scalar is an empty list. -/
def asTexts? : Node → Option (List String)
  | sequence items => items.mapM asText?
  | scalar text style _ => if text.isEmpty && style == .plain then some [] else none
  | mapping _ => none

/-- The text stands for no value. -/
def isNullText (text : String) : Bool := ["null", "Null", "NULL", "~"].contains text

/-- A value that may be null. -/
def asOptional? {α : Type} (read : Node → Option α) (n : Node) : Option (Option α) :=
  match n with
  | scalar text .plain none =>
    if text.isEmpty || isNullText text then some none else (read n).map some
  | scalar text .plain (some tag) =>
    if tag == "tag:yaml.org,2002:null" then
      if isNullText text then some none else none
    else (read n).map some
  | n => (read n).map some

/-- The name of a choice: the text of a scalar, or a tag of one that is null. -/
def asChoice? : Node → Option String
  | scalar text style (some tag) =>
    match tag.after? "!" with
    | some name => if style == .plain && (text.isEmpty || isNullText text) then some name else none
    | none => some text
  | scalar text _ none => some text
  | _ => none

def asCasing? (n : Node) : Option Casing := n.asChoice?.bind Casing.read?

/-- The entries of a mapping by name; an empty plain scalar is an empty mapping. -/
def fields? : Node → Option (List (String × Node))
  | mapping entries => entries.mapM fun (k, v) => k.asText?.map fun name => (name, v)
  | scalar text style _ => if text.isEmpty && style == .plain then some [] else none
  | sequence _ => none

/-- The field of that name, or the default if it is missing; it may not be there twice. -/
def field? {α : Type} (fields : List (String × Node)) (name : String) (default : α)
    (read : Node → Option α) : Option α :=
  match fields.filter fun f => f.1 == name with
  | [] => some default
  | [(_, n)] => read n
  | _ => none

end Yaml.Node

open Yaml Yaml.Node

def RecognizerConfig.parse? (text : String) : Option RecognizerConfig := do
  let fields ← (← Yaml.read? text).fields?
  pure
    { tolerant := ← field? fields "fuzzy" true asBool?
      stopWords := ← field? fields "stop_words" [] asTexts?
      casing := ← field? fields "casing" .keep asCasing?
      intents := ← field? fields "intents" none (asOptional? asTexts?)
      maxPaths := ← field? fields "max_paths" none (asOptional? asNat?) }

def TrainConfig.parse? (text : String) : Option TrainConfig := do
  let fields ← (← Yaml.read? text).fields?
  pure
    { casing := ← field? fields "casing" .keep asCasing?
      replaceNumbers := ← field? fields "replace_numbers" true asBool?
      addWeights := ← field? fields "add_intent_weights" true asBool?
      excludeSlots := ← field? fields "exclude_slots_from_counts" true asBool? }

end Utterance
