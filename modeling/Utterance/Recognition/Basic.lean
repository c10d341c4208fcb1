import Utterance.Value.Basic

/-!
# What has been recognized

A recognition names the intent of an utterance and its entities.  It holds the utterance twice: as words that
were heard, the raw ones, and as values that were said.  Offsets count characters of the two texts, in which
words are separated by single spaces.
-/

namespace Utterance

/-- A part of an utterance that has a name. -/
structure Entity where
  name : String
  value : Value
  rawValue : String
  /-- The slot that the value comes from. -/
  source : Option String
  first : Nat
  last : Nat
  rawFirst : Nat
  rawLast : Nat
  tokens : List Value
  rawTokens : List String
deriving Repr, Inhabited

structure Recognition where
  intent : String
  /-- One, or less the more was passed over in the input. -/
  confidence : Float
  entities : List Entity
  text : String
  rawText : String
  tokens : List Value
  rawTokens : List String
deriving Repr, Inhabited

/-- The text of several words. -/
def spaced (words : List String) : String := " ".intercalate words

/-- The entity as data; none if a value has no data. -/
def Entity.toJson? (e : Entity) : Option Json := do
  let value ← e.value.toJson?
  let tokens ← e.tokens.mapM Value.toJson?
  let source := match e.source with
    | some s => [("source", Json.text s)]
    | none => []
  some (.object (
    [("entity", .text e.name), ("value", value), ("raw_value", .text e.rawValue)] ++ source ++
    [("start", .int e.first), ("end", .int e.last), ("raw_start", .int e.rawFirst),
      ("raw_end", .int e.rawLast), ("tokens", .array tokens), ("raw_tokens", Json.ofTexts e.rawTokens)]))

namespace Recognition

def entity? (r : Recognition) (name : String) : Option Entity :=
  r.entities.find? fun e => e.name == name

/-- The recognition as data; none if a value has no data.  The time that was taken is not measured. -/
def toJson? (r : Recognition) : Option Json := do
  let entities ← r.entities.mapM Entity.toJson?
  let tokens ← r.tokens.mapM Value.toJson?
  some (.object
    [("intent", .object [("name", .text r.intent), ("confidence", .float r.confidence)]),
      ("entities", .array entities), ("text", .text r.text), ("raw_text", .text r.rawText),
      ("tokens", .array tokens), ("raw_tokens", Json.ofTexts r.rawTokens),
      ("recognize_seconds", .float 0)])

/-- Several recognitions as data. -/
def arrayJson? (l : List Recognition) : Option Json := (l.mapM toJson?).map .array

end Recognition

end Utterance
