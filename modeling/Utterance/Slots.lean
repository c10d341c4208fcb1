import Utterance.Compile.Table

/-!
# The values of slots

A generator turns a slot's arguments into lines, each of which is a template.  `fillSlots` asks for the
values of every slot that a sentence or the table refers to, and then of those that the values refer to,
always the smallest key first, until the table holds them all.  As generators are arbitrary, values may
refer to ever new slots; the number of slots that are filled is therefore bounded.
-/

namespace Utterance

/-- Turns arguments into lines, or says why it cannot. -/
abbrev SlotGenerator := List String → Except String (List String)

structure SlotGenerators where
  entries : List (String × SlotGenerator) := []

namespace SlotGenerators

def key (name : String) : String := if name.startsWith "$" then name else slotKey name

/-- Adds a generator, or replaces the one of that name. -/
def register (g : SlotGenerators) (name : String) (f : SlotGenerator) : SlotGenerators :=
  ⟨(g.entries.filter fun e => e.1 != key name) ++ [(key name, f)]⟩

/-- A slot with a fixed list of values. -/
def registerValues (g : SlotGenerators) (name : String) (values : List String) : SlotGenerators :=
  g.register name fun _ => .ok values

def get? (g : SlotGenerators) (name : String) : Option SlotGenerator := g.entries.lookup (key name)

def names (g : SlotGenerators) : List String :=
  (g.entries.map Prod.fst).mergeSort fun a b => decide (a ≤ b)

end SlotGenerators

inductive SlotError where
  | missingGenerator (key : String)
  | failed (key message : String)
  | malformed (e : SyntaxError)
  | empty (key : String)
  /-- The bound on the number of slots has been reached. -/
  | endless
deriving DecidableEq, Repr, Inhabited

def SlotError.message : SlotError → String
  | missingGenerator key => "no generator for slot: " ++ key
  | failed key message => "slot generator " ++ key ++ " failed: " ++ message
  | malformed e => e.message
  | empty key => "no output from slot: " ++ key
  | endless => "slots refer to ever new slots"

def insertKey (key : String) : List String → List String
  | [] => [key]
  | k :: rest =>
    if key < k then key :: k :: rest else if key == k then k :: rest else k :: insertKey key rest

def insertKeys (keys : List String) (l : List String) : List String :=
  keys.foldl (fun l key => insertKey key l) l

/-- The keys of the slots in a list of expressions. -/
def slotKeysOf (l : List Expr) : List String := l.flatMap Expr.slotKeys

/-- The templates in the lines of a generator: blank lines do not count, nor blanks around a line. -/
def readValues (visit : Sentence → Sentence) (lines : List String) :
    Except SyntaxError (List Expr) :=
  ((lines.map String.trimBlanks).filter (!·.isEmpty)).mapM fun line =>
    (Sentence.parse line).map fun s => (visit s).toExpr

/-- The values of the slot with that key. -/
def generateSlot (g : SlotGenerators) (visit : Sentence → Sentence) (key : String) :
    Except SlotError (List Expr) := do
  let some f := g.get? (slotBase key) | .error (.missingGenerator key)
  let lines ← (f (slotArgs key)).mapError (.failed key)
  let values ← (readValues visit lines).mapError .malformed
  if values.isEmpty then .error (.empty key) else pure values

/-- Fills the slots of the keys `pending`, which ascend, and of those that their values refer to, in at most
`bound` steps. -/
def fillPending (g : SlotGenerators) (visit : Sentence → Sentence) :
    Nat → Table → List String → Except SlotError Table
  | _, t, [] => .ok t
  | 0, _, _ :: _ => .error .endless
  | bound + 1, t, key :: pending =>
    match t.get? key with
    | some _ => fillPending g visit bound t pending
    | none => do
      let values ← generateSlot g visit key
      fillPending g visit bound (t.insert key values) (insertKeys (slotKeysOf values) pending)

/-- The keys that the sentences and the table refer to, ascending. -/
def pendingKeys (l : IntentSentences) (t : Table) : List String :=
  let inSentences := l.flatMap fun (_, sentences) => sentences.flatMap fun s => slotKeysOf s.items
  let inTable := t.flatMap fun (_, values) => slotKeysOf values
  insertKeys (inSentences ++ inTable) []

/-- How many steps of filling are tried. -/
def slotBound : Nat := 1000000

/-- Adds to the table the values of every slot that is referred to and that it does not hold yet. -/
def fillSlots (g : SlotGenerators) (visit : Sentence → Sentence) (l : IntentSentences) (t : Table)
    (bound : Nat := slotBound) : Except SlotError Table :=
  fillPending g visit bound t (pendingKeys l t)

end Utterance
