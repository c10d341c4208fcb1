import Utterance.Decimal.Shortest

/-!
# Data as JSON text

The values that JSON text stands for, and how they are written: without spaces, or indented by two.  The
members of an object keep their order and their repetitions, so that a reader can reject them.
-/

namespace Utterance

inductive Json where
  | null
  | bool (b : Bool)
  | int (n : Int)
  | float (x : Float)
  | text (s : String)
  | array (items : List Json)
  | object (members : List (String × Json))
deriving Inhabited

namespace Json

/-- The hexadecimal digits of a control character. -/
def controlCode (c : Char) : List Char :=
  let hex := Nat.toDigits 16 c.toNat
  ['\\', 'u'] ++ List.replicate (4 - hex.length) '0' ++ hex

/-- A character as it is written inside a text. -/
def escapeChar (c : Char) : List Char :=
  if c == '"' || c == '\\' then ['\\', c]
  else if c == '\n' then ['\\', 'n']
  else if c == '\r' then ['\\', 'r']
  else if c == '\t' then ['\\', 't']
  else if c == '\x08' then ['\\', 'b']
  else if c == '\x0c' then ['\\', 'f']
  else if c.toNat < 32 then controlCode c
  else [c]

def quote (s : String) : String := String.ofList ('"' :: s.toList.flatMap escapeChar ++ ['"'])

mutual

/-- The text without any spaces. -/
def render : Json → String
  | null => "null"
  | bool b => if b then "true" else "false"
  | int n => toString n
  | float x => Decimal.dataText x
  | text s => quote s
  | array items => "[" ++ ",".intercalate (renderItems items) ++ "]"
  | object members => "\x7b" ++ ",".intercalate (renderMembers members) ++ "\x7d"

def renderItems : List Json → List String
  | [] => []
  | v :: rest => render v :: renderItems rest

def renderMembers : List (String × Json) → List String
  | [] => []
  | (k, v) :: rest => (quote k ++ ":" ++ render v) :: renderMembers rest

end

/-- A new line, indented to `depth`. -/
def newLine (depth : Nat) : String := "\n" ++ String.ofList (List.replicate (2 * depth) ' ')

/-- Items between brackets, each on a line of its own; nothing between the brackets if there are none. -/
def block (depth : Nat) (opening closing : String) (items : List String) : String :=
  if items.isEmpty then opening ++ closing
  else
    opening ++ newLine (depth + 1) ++ ("," ++ newLine (depth + 1)).intercalate items ++
      newLine depth ++ closing

mutual

/-- The text with each item and member on a line of its own. -/
def renderIndented (depth : Nat) : Json → String
  | array items => block depth "[" "]" (indentItems (depth + 1) items)
  | object members => block depth "\x7b" "\x7d" (indentMembers (depth + 1) members)
  | null => render null
  | bool b => render (bool b)
  | int n => render (int n)
  | float x => render (float x)
  | text s => render (text s)

def indentItems (depth : Nat) : List Json → List String
  | [] => []
  | v :: rest => renderIndented depth v :: indentItems depth rest

def indentMembers (depth : Nat) : List (String × Json) → List String
  | [] => []
  | (k, v) :: rest => (quote k ++ ": " ++ renderIndented depth v) :: indentMembers depth rest

end

def pretty (v : Json) : String := v.renderIndented 0

def ofTexts (l : List String) : Json := array (l.map text)

end Json

end Utterance
