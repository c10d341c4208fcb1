import Utterance.Yaml.Scalar

/-!
# Tokens

A document is cut into tokens.  Indentation becomes tokens too: a block collection opens where the text is
indented more than the collection around it, and closes where it is indented less.  The key of a mapping is
known as such only at the colon after it, so the place where it started is kept, and the tokens that open the
mapping and the key are put there afterwards.
-/

namespace Utterance.Yaml

inductive Token where
  | version (major minor : Nat)
  | tagDirective (handle start : String)
  | documentStart
  | documentEnd
  | openBlockSequence
  | openBlockMapping
  | closeBlock
  | openSequence
  | closeSequence
  | openMapping
  | closeMapping
  | item
  | comma
  | key
  | value
  | alias (name : String)
  | anchor (name : String)
  | tag (handle suffix : String)
  | scalar (text : String) (style : Style)
deriving DecidableEq, Repr, Inhabited

structure KeyPlace where
  /-- The position of its first token. -/
  token : Nat
  start : Cell
  /-- If this is no key, the document is wrong. -/
  required : Bool
deriving Repr, Inhabited

structure Scanner where
  cells : List Cell
  tokens : Array Token := #[]
  /-- The columns of the open block collections, the innermost first. -/
  indents : List Nat := []
  /-- Where a key may have started, at every level of collections in brackets, the innermost first. -/
  places : List (Option KeyPlace) := []
  /-- Where a key may have started outside all brackets. -/
  place : Option KeyPlace := none
  /-- A key may start here. -/
  keyAllowed : Bool := true
deriving Inhabited

namespace Scanner

def inFlow (s : Scanner) : Bool := !s.places.isEmpty

def push (s : Scanner) (t : Token) : Scanner := { s with tokens := s.tokens.push t }

/-- Where a key may have started at the current level. -/
def current (s : Scanner) : Option KeyPlace :=
  match s.places with
  | [] => s.place
  | p :: _ => p

def setCurrent (s : Scanner) (p : Option KeyPlace) : Scanner :=
  match s.places with
  | [] => { s with place := p }
  | _ :: rest => { s with places := p :: rest }

/-- Gives up the key that may have started at the current level. -/
def dropKey? (s : Scanner) : Option Scanner :=
  if s.current.any KeyPlace.required then none else some (s.setCurrent none)

/-- Notes that a key may start here. -/
def saveKey? (s : Scanner) : Option Scanner :=
  match s.keyAllowed, s.cells with
  | true, c :: _ => do
    let s ← s.dropKey?
    let required := !s.inFlow && s.indents.head? == some c.column
    pure (s.setCurrent (some ⟨s.tokens.size, c, required⟩))
  | _, _ => some s

/-- A key has to end on its line, and within so many characters. -/
def maxKeyLength : Nat := 1024

/-- The place of a key that can no longer be one, seen from the cell `c`, is given up. -/
def fresh? (c : Cell) (p : Option KeyPlace) : Option (Option KeyPlace) :=
  match p with
  | none => some none
  | some p =>
    if p.start.line < c.line || p.start.offset + maxKeyLength < c.offset then
      if p.required then none else some none
    else some (some p)

/-- Gives up all keys that can no longer be one. -/
def freshen? (s : Scanner) : Option Scanner :=
  match s.cells with
  | [] => some s
  | c :: _ => do
    let place ← fresh? c s.place
    let places ← s.places.mapM (fresh? c)
    pure { s with place, places }

/-- Opens a block collection at a column, if it is indented more than those that are open; its token comes at
the position `position`. -/
def roll (s : Scanner) (column position : Nat) (t : Token) : Scanner :=
  if s.inFlow then s
  else if s.indents.head?.all (· < column) then
    { s with indents := column :: s.indents, tokens := s.tokens.insertIdxIfInBounds position t }
  else s

/-- Closes the block collections that are indented more than the given column, or all. -/
def unroll (column : Option Nat) (s : Scanner) : Scanner :=
  if s.inFlow then s
  else
    let closed := s.indents.takeWhile fun n => column.all (· < n)
    { s with
      indents := s.indents.drop closed.length
      tokens := s.tokens ++ (closed.map fun _ => Token.closeBlock).toArray }

/-- Leaves out so many cells. -/
def skip (s : Scanner) (n : Nat) : Scanner := { s with cells := s.cells.drop n }

/-- Passes blanks, comments and ends of lines.  At the start of a line a key may start, but a tab may not
stand where one may. -/
def toToken (inFlow inComment keyAllowed : Bool) : List Cell → Bool × List Cell
  | [] => (keyAllowed, [])
  | c :: cs =>
    if isBreak c.char then toToken inFlow false (keyAllowed || !inFlow) cs
    else if inComment then toToken inFlow true keyAllowed cs
    else if c.char == ' ' || (c.char == '\t' && (inFlow || !keyAllowed)) then
      toToken inFlow false keyAllowed cs
    else if c.char == '#' then toToken inFlow true keyAllowed cs
    else (keyAllowed, c :: cs)

/-! ## The kinds of tokens -/

/-- Something at the left margin that closes all blocks. -/
def atMargin? (s : Scanner) : Option Scanner := do
  let s ← (s.unroll none).dropKey?
  pure { s with keyAllowed := false }

/-- Digits, of which there may be nine at most. -/
def number? (cs : List Cell) : Option (Nat × List Cell) :=
  let (digits, rest) := spanCells Char.isDigit cs
  if digits.isEmpty || 9 < digits.length then none
  else some (digits.foldl (fun n d => n * 10 + (d.toNat - '0'.toNat)) 0, rest)

/-- The characters of tags besides those of names; commas and square brackets stand only in some. -/
def isTagChar (all : Bool) (c : Char) : Bool :=
  isNameChar c || ";/?:@&=+$.!~*'()".toList.contains c || (all && ",[]".toList.contains c)

/-- Reads a character of a tag that is written as bytes, each a percent sign and two digits. -/
def tagBytes? (done : List UInt8) : List Cell → Option (List UInt8 × List Cell)
  | p :: a :: b :: rest =>
    if p.char == '%' then do
      let high ← hexDigit? a.char
      let low ← hexDigit? b.char
      tagBytes? (UInt8.ofNat (16 * high + low) :: done) rest
    else some (done.reverse, p :: a :: b :: rest)
  | cs => if startsWith '%' cs then none else some (done.reverse, cs)

/-- Reads the characters of a tag, at most `bound` runs of them. -/
def tagText? (all : Bool) : Nat → List Char → List Cell → Option (List Char × List Cell)
  | 0, done, cs => some (done, cs)
  | bound + 1, done, cs =>
    let (plain, rest) := spanCells (isTagChar all) cs
    let done := done ++ plain
    if startsWith '%' rest then do
      let (bytes, rest) ← tagBytes? [] rest
      let text ← String.fromUTF8? (ByteArray.mk bytes.toArray)
      tagText? all bound (done ++ text.toList) rest
    else some (done, rest)

/-- Reads an exclamation mark, a name, and perhaps another mark. -/
def handle? (cs : List Cell) : Option (List Char × List Cell) :=
  match cs with
  | c :: cs =>
    if c.char == '!' then
      let (name, rest) := spanCells isNameChar cs
      if startsWith '!' rest then some ('!' :: name ++ ['!'], rest.tail)
      else some ('!' :: name, rest)
    else none
  | [] => none

/-- Reads a tag in angle brackets, with a handle, or local. -/
def tag? (cs : List Cell) : Option (Token × List Cell) :=
  match cs with
  | _ :: b :: rest =>
    if b.char == '<' then do
      let (text, rest) ← tagText? true (rest.length + 1) [] rest
      if text.isEmpty || !startsWith '>' rest then none
      else some (.tag "" (String.ofList text), rest.tail)
    else do
      let (handle, rest) ← handle? cs
      if 1 < handle.length && handle.getLast? == some '!' then
        let (text, rest) ← tagText? false (rest.length + 1) [] rest
        if text.isEmpty then none else some (.tag (String.ofList handle) (String.ofList text), rest)
      else
        let (text, rest) ← tagText? false (rest.length + 1) handle.tail rest
        if text.isEmpty then some (.tag "" "!", rest) else some (.tag "!" (String.ofList text), rest)
  | _ => some (.tag "" "!", [])

/-- Reads a directive after its percent sign. -/
def directive? (cs : List Cell) : Option (Token × List Cell) := do
  let (name, rest) := spanCells isNameChar cs
  if name.isEmpty || !atGap rest then none
  else if name == "YAML".toList then
    let (major, rest) ← number? (skipBlanks rest)
    if !startsWith '.' rest then none
    else
      let (minor, rest) ← number? rest.tail
      pure (.version major minor, ← skipLineEnd? rest)
  else if name == "TAG".toList then
    let (handle, rest) ← handle? (skipBlanks rest)
    if handle != ['!'] && !(1 < handle.length && handle.getLast? == some '!') then none
    else if !(next? rest).any isBlank then none
    else
      let rest := skipBlanks rest
      let (start, rest) ← tagText? true (rest.length + 1) [] rest
      if start.isEmpty || !atGap rest then none
      else pure (.tagDirective (String.ofList handle) (String.ofList start), ← skipLineEnd? rest)
  else none

/-- Reads the name of an anchor or an alias. -/
def name? (cs : List Cell) : Option (String × List Cell) :=
  let (name, rest) := spanCells isNameChar cs
  let ends := atGap rest || (next? rest).any fun c => "?:,]\x7d%@\x60".toList.contains c
  if name.isEmpty || !ends then none else some (String.ofList name, rest)

/-- The token before which nothing but indentation may stand opens a block collection of its kind. -/
def indicator? (s : Scanner) (column : Nat) (t opening : Token) : Option Scanner := do
  let s ← if s.inFlow then some s
    else if s.keyAllowed then some (s.roll column s.tokens.size opening)
    else none
  let s ← s.dropKey?
  pure ((s.push t).skip 1)

/-- A colon after a key. -/
def value? (s : Scanner) (column : Nat) : Option Scanner :=
  match s.current with
  | some p =>
    let s := { s with tokens := s.tokens.insertIdxIfInBounds p.token .key }
    let s := (s.roll p.start.column p.token .openBlockMapping).setCurrent none
    some (({ s with keyAllowed := false }.push .value).skip 1)
  | none =>
    if s.inFlow then some (({ s with keyAllowed := false }.push .value).skip 1)
    else if s.keyAllowed then
      let s := s.roll column s.tokens.size .openBlockMapping
      some (({ s with keyAllowed := true }.push .value).skip 1)
    else none

/-- A token after which no key may start, but which may be one. -/
def word? (s : Scanner) (read : List Cell → Option (Token × List Cell)) : Option Scanner := do
  let s ← s.saveKey?
  let (t, rest) ← read s.cells
  pure { s.push t with keyAllowed := false, cells := rest }

def openFlow? (s : Scanner) (t : Token) : Option Scanner := do
  let s ← s.saveKey?
  pure (({ s with keyAllowed := true, places := none :: s.places }.push t).skip 1)

def closeFlow? (s : Scanner) (t : Token) : Option Scanner := do
  let s ← s.dropKey?
  pure (({ s with keyAllowed := false, places := s.places.tail }.push t).skip 1)

def block? (s : Scanner) (folds : Bool) (cs : List Cell) : Option Scanner := do
  let s ← s.dropKey?
  let (text, rest) ← Yaml.block? folds s.indents.head? cs
  pure { s.push (.scalar text (if folds then .folded else .literal)) with
    keyAllowed := true, cells := rest }

def plain? (s : Scanner) : Option Scanner := do
  let s ← s.saveKey?
  let indent := match s.indents.head? with
    | some n => n + 1
    | none => 0
  let (text, broken, rest) ← plainFrom s.inFlow indent [] {} s.cells
  pure { s.push (.scalar text .plain) with keyAllowed := broken, cells := rest }

/-- The characters that no plain scalar starts with, apart from those that may if a word follows. -/
def isIndicator (c : Char) : Bool := "-?:,[]\x7b\x7d#&*!|>'\"%@\x60".toList.contains c

/-- Cuts off the token that starts at the cell `c`, before the cells `cs`. -/
def cut? (s : Scanner) (c : Cell) (cs : List Cell) : Option Scanner :=
  let flow := s.inFlow
  if c.column == 0 && c.char == '%' then do
    let s ← s.atMargin?
    let (t, rest) ← directive? cs
    pure { s.push t with cells := rest }
  else if atSeparator '-' (c :: cs) then do
    let s ← s.atMargin?
    pure ((s.push .documentStart).skip 3)
  else if atSeparator '.' (c :: cs) then do
    let s ← s.atMargin?
    pure ((s.push .documentEnd).skip 3)
  else
    match c.char with
    | '[' => s.openFlow? .openSequence
    | '{' => s.openFlow? .openMapping
    | ']' => s.closeFlow? .closeSequence
    | '}' => s.closeFlow? .closeMapping
    | ',' => do
      let s ← s.dropKey?
      pure (({ s with keyAllowed := true }.push .comma).skip 1)
    | '*' => s.word? fun cells => (name? cells.tail).map fun (n, rest) => (.alias n, rest)
    | '&' => s.word? fun cells => (name? cells.tail).map fun (n, rest) => (.anchor n, rest)
    | '!' => s.word? fun cells => do
      let (t, rest) ← tag? cells
      if atGap rest || (flow && startsWith ',' rest) then some (t, rest) else none
    | '\'' => s.word? fun cells =>
      (singleFrom [] {} cells.tail).map fun (text, rest) => (.scalar text .single, rest)
    | '"' => s.word? fun cells =>
      (doubleFrom .text [] {} cells.tail).map fun (text, rest) => (.scalar text .double, rest)
    | ch =>
      if ch == '-' && atGap cs then do
        let s ← s.indicator? c.column .item .openBlockSequence
        pure { s with keyAllowed := true }
      else if ch == '?' && (flow || atGap cs) then do
        let s ← s.indicator? c.column .key .openBlockMapping
        pure { s with keyAllowed := !flow }
      else if ch == ':' && (flow || atGap cs) then s.value? c.column
      else if ch == '|' && !flow then s.block? false cs
      else if ch == '>' && !flow then s.block? true cs
      else if !isBlank ch && (!isIndicator ch || (ch == '-' && !(next? cs).any isBlank) ||
          (!flow && (ch == '?' || ch == ':') && !atGap cs)) then s.plain?
      else none

def run? : Nat → Scanner → Option Scanner
  | 0, s => some s
  | bound + 1, s => do
    let (keyAllowed, cells) := toToken s.inFlow false s.keyAllowed s.cells
    let s ← { s with keyAllowed, cells }.freshen?
    match cells with
    | [] => (s.unroll none).dropKey?
    | c :: cs =>
      let s ← (s.unroll (some c.column)).cut? c cs
      run? bound s

end Scanner

/-- The tokens of a text; none if it cannot be cut into tokens. -/
def tokens? (text : String) : Option (List Token) := do
  let cells ← cells? text
  let s ← Scanner.run? (cells.length + 1) { cells }
  pure s.tokens.toList

end Utterance.Yaml
