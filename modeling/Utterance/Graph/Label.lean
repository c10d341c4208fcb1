import Utterance.Text.Blank
import Utterance.Text.Base64

/-!
# Output labels

What an edge says is one token without blanks.  A token that starts with two underscores is not said but
steers how a path is understood: it starts an intent, opens or closes an entity or a converter, or names
the slot that a value comes from.  A text with blanks in it is packed into a token, and `unpack?` gives it
back.
-/

namespace Utterance

inductive Control where
  /-- Here the sentences of an intent begin. -/
  | intent (name : String)
  | beginEntity (name : String)
  | endEntity (name : String)
  /-- The key is a converter's name with its arguments after commas. -/
  | beginConvert (key : String)
  | endConvert (key : String)
  /-- The slot that the words of the open entity come from. -/
  | source (slot : String)
deriving DecidableEq, Repr, Inhabited

namespace Control

def text : Control → String
  | intent name => "__label__" ++ name
  | beginEntity name => "__begin__" ++ name
  | endEntity name => "__end__" ++ name
  | beginConvert key => "__convert__" ++ key
  | endConvert key => "__converted__" ++ key
  | source slot => "__source__" ++ slot

/-- Reads a label; no label has two readings. -/
def read? (label : String) : Option Control :=
  ((label.after? "__converted__").map endConvert).or <|
  ((label.after? "__convert__").map beginConvert).or <|
  ((label.after? "__label__").map intent).or <|
  ((label.after? "__begin__").map beginEntity).or <|
  ((label.after? "__end__").map endEntity).or <|
  (label.after? "__source__").map source

end Control

namespace Label

/-- The label steers and is not said, whether or not it has a meaning. -/
def isControl (label : String) : Bool := (label.after? "__").isSome

/-- The name of the intent that starts at an edge with this label. -/
def intent? (label : String) : Option String := label.after? "__label__"

/-- What packed texts start with. -/
def packMark : String := "__unpack__"

/-- A text as one token: itself, or packed if it has blanks. -/
def pack (s : String) : String :=
  if s.hasBlank then packMark ++ String.ofList (Text.Base64.encode s.toUTF8.toList) else s

/-- The text that a label stands for; none if it is packed badly. -/
def unpack? (label : String) : Option String :=
  match label.after? packMark with
  | none => some label
  | some payload => do
    let bytes ← Text.Base64.decode (Text.trim payload.toList)
    String.fromUTF8? (ByteArray.mk bytes.toArray)

end Label

end Utterance
