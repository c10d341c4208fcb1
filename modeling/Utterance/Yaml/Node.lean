import Utterance.Yaml.Token

/-!
# Nodes

A document is a tree of scalars, sequences and mappings.  Where a node is left out, an empty plain scalar
stands.  An alias is the node that its anchor was last given to.
-/

namespace Utterance.Yaml

inductive Node where
  | scalar (text : String) (style : Style) (tag : Option String)
  | sequence (items : List Node)
  | mapping (entries : List (Node × Node))
deriving Repr, Inhabited

/-- What stands for a node that is left out. -/
def Node.blank (tag : Option String := none) : Node := .scalar "" .plain tag

/-- The tokens that are left, the anchors, and what the handles of tags stand for. -/
structure Source where
  tokens : List Token
  anchors : List (String × Node) := []
  handles : List (String × String) := []

/-- Reads something off the front of the tokens, or finds that it is not there. -/
abbrev Reader := StateT Source Option

namespace Reader

def peek : Reader (Option Token) := do
  let s ← get
  return s.tokens.head?

def skip : Reader Unit := modify fun s => { s with tokens := s.tokens.tail }

def at? (t : Token) : Reader Bool := do
  return (← peek) == some t

def atOneOf (ts : List Token) : Reader Bool := do
  match ← peek with
  | none => return true
  | some t => return ts.contains t

def require (t : Token) : Reader Unit := do
  if ← at? t then skip else failure

end Reader

open Reader

/-- What the handles stand for that need no directive. -/
def commonHandles : List (String × String) := [("!", "!"), ("!!", "tag:yaml.org,2002:")]

/-- The tag that a handle and a suffix make. -/
def resolveTag (handle suffix : String) : Reader String := do
  if handle.isEmpty then return suffix
  let s ← get
  match s.handles.lookup handle with
  | some start => return start ++ suffix
  | none => failure

/-- An anchor and a tag in front of a node, in any order. -/
structure Properties where
  anchor : Option String := none
  tag : Option String := none

def readAnchor (p : Properties) : Reader Properties := do
  match ← peek with
  | some (.anchor name) => skip; return { p with anchor := some name }
  | _ => return p

def readTag (p : Properties) : Reader Properties := do
  match ← peek with
  | some (.tag handle suffix) =>
    skip
    return { p with tag := some (← resolveTag handle suffix) }
  | _ => return p

def readProperties : Reader Properties := do
  let p ← readAnchor {}
  let p ← readTag p
  if p.anchor.isSome then return p else readAnchor p

def setAnchor (p : Properties) (n : Node) : Reader Unit :=
  match p.anchor with
  | some name => modify fun s => { s with anchors := (name, n) :: s.anchors }
  | none => pure ()

/-- Where a node is read: in a block, as the value in a block mapping, whose items may stand in the same
column, or in brackets. -/
inductive Place where
  | block
  | blockValue
  | flow
deriving DecidableEq, Repr, Inhabited

/-- What comes after a key or a value in a block mapping. -/
def mappingMarks : List Token := [.key, .value, .closeBlock]

mutual

def readNode (place : Place) : Nat → Reader Node
  | 0 => failure
  | bound + 1 => do
    match ← peek with
    | some (.alias name) =>
      skip
      match (← get).anchors.lookup name with
      | some n => return n
      | none => failure
    | _ =>
      let p ← readProperties
      setAnchor p (.mapping [])
      let n ← readContent place p bound
      setAnchor p n
      return n

def readContent (place : Place) (p : Properties) : Nat → Reader Node
  | 0 => failure
  | bound + 1 => do
    match ← peek with
    | some (.scalar text style) =>
      skip
      return .scalar text style (p.tag.filter (· != "!"))
    | some .openSequence => skip; return .sequence (← readItems true bound)
    | some .openMapping => skip; return .mapping (← readMembers true bound)
    | some .item =>
      if place == .blockValue then return .sequence (← readFlushItems bound)
      else readBlank p
    | some .openBlockSequence =>
      if place == .flow then readBlank p
      else skip; return .sequence (← readBlockItems bound)
    | some .openBlockMapping =>
      if place == .flow then readBlank p
      else skip; return .mapping (← readEntries bound)
    | _ => readBlank p

/-- A node may be left out after an anchor or a tag. -/
def readBlank (p : Properties) : Reader Node :=
  if p.anchor.isSome || p.tag.isSome then return Node.blank p.tag else failure

/-- Reads a node unless one of the given tokens comes next. -/
def readUnless (marks : List Token) (place : Place) : Nat → Reader Node
  | 0 => failure
  | bound + 1 => do
    if ← atOneOf marks then return Node.blank else readNode place bound

def readBlockItems : Nat → Reader (List Node)
  | 0 => failure
  | bound + 1 => do
    match ← peek with
    | some .item =>
      skip
      let n ← readUnless [.item, .closeBlock] .block bound
      return n :: (← readBlockItems bound)
    | some .closeBlock => skip; return []
    | _ => failure

/-- Reads items that stand in the column of the mapping around them. -/
def readFlushItems : Nat → Reader (List Node)
  | 0 => failure
  | bound + 1 => do
    match ← peek with
    | some .item =>
      skip
      let n ← readUnless (.item :: mappingMarks) .block bound
      return n :: (← readFlushItems bound)
    | _ => return []

def readEntries : Nat → Reader (List (Node × Node))
  | 0 => failure
  | bound + 1 => do
    match ← peek with
    | some .closeBlock => skip; return []
    | some .key =>
      skip
      let k ← readUnless mappingMarks .blockValue bound
      let v ← readEntryValue bound
      return (k, v) :: (← readEntries bound)
    | _ => failure

/-- Reads the value of an entry, which may be left out. -/
def readEntryValue : Nat → Reader Node
  | 0 => failure
  | bound + 1 => do
    if ← at? .value then skip; readUnless mappingMarks .blockValue bound
    else return Node.blank

/-- Reads the items of a sequence in brackets and its end.  An item with a key is a mapping of one entry. -/
def readItems (isFirst : Bool) : Nat → Reader (List Node)
  | 0 => failure
  | bound + 1 => do
    if ← at? .closeSequence then skip; return []
    unless isFirst do require .comma
    match ← peek with
    | some .closeSequence => skip; return []
    | some .key =>
      skip
      let k ← if ← atOneOf [.value, .comma, .closeSequence] then skip; pure Node.blank
        else readNode .flow bound
      let v ← if ← at? .value then skip; readUnless [.comma, .closeSequence] .flow bound
        else pure Node.blank
      return .mapping [(k, v)] :: (← readItems false bound)
    | _ =>
      let n ← readNode .flow bound
      return n :: (← readItems false bound)

def readMembers (isFirst : Bool) : Nat → Reader (List (Node × Node))
  | 0 => failure
  | bound + 1 => do
    if ← at? .closeMapping then skip; return []
    unless isFirst do require .comma
    match ← peek with
    | some .closeMapping => skip; return []
    | some .key =>
      skip
      let k ← readUnless [.value, .comma, .closeMapping] .flow bound
      let v ← if ← at? .value then skip; readUnless [.comma, .closeMapping] .flow bound
        else pure Node.blank
      return (k, v) :: (← readMembers false bound)
    | _ =>
      let k ← readNode .flow bound
      return (k, Node.blank) :: (← readMembers false bound)

end

/-! ## Documents -/

/-- Reads directives: at most one version, which is 1.1 or 1.2, and one meaning for a handle. -/
def readDirectives (hasVersion : Bool) : Nat → Reader Unit
  | 0 => failure
  | bound + 1 => do
    match ← peek with
    | some (.version major minor) =>
      skip
      if hasVersion || major != 1 || (minor != 1 && minor != 2) then failure
      else readDirectives true bound
    | some (.tagDirective handle start) =>
      skip
      let s ← get
      if (s.handles.lookup handle).isSome then failure
      else
        set { s with handles := (handle, start) :: s.handles }
        readDirectives hasVersion bound
    | _ => return

/-- The next token can only stand between documents. -/
def atDirective : Reader Bool := do
  match ← peek with
  | some (.version _ _) | some (.tagDirective _ _) => return true
  | _ => return false

/-- Reads the only document, which may be left out. -/
def readDocument (bound : Nat) : Reader Node := do
  if (← peek).isNone then return Node.blank
  let explicit ← do
    if ← atDirective then
      readDirectives false bound
      require .documentStart
      pure true
    else if ← at? .documentStart then skip; pure true
    else pure false
  modify fun s =>
    { s with handles := s.handles ++ commonHandles.filter fun h => (s.handles.lookup h.1).isNone }
  let empty ← atOneOf [.documentStart, .documentEnd]
  let n ← if explicit && (empty || (← atDirective)) then pure Node.blank
    else readNode .block bound
  readEnds bound
  return n
where
  /-- Passes the ends of documents, after which nothing may come. -/
  readEnds : Nat → Reader Unit
    | 0 => failure
    | bound + 1 => do
      match ← peek with
      | none => return
      | some .documentEnd => skip; readEnds bound
      | _ => failure

/-- The document that a text holds; none if it holds several or is not well formed. -/
def read? (text : String) : Option Node := do
  let tokens ← tokens? text
  let (n, _) ← (readDocument (4 * tokens.length + 4)).run { tokens }
  pure n

end Utterance.Yaml
