import Utterance.Yaml.Cell

/-!
# Scalars

The five ways of writing a text.  All of them fold lines: a single end of a line becomes a space, and of
several ones the first is dropped; block scalars do so only if they are folded, and not around lines that
are indented more.
-/

namespace Utterance.Yaml

inductive Style where
  | plain
  | single
  | double
  | literal
  | folded
deriving DecidableEq, Repr, Inhabited

/-- Blanks and ends of lines between two words. -/
structure Gap where
  /-- The blanks before the first end of a line, the last one first. -/
  blanks : List Char := []
  /-- The first end of a line has been passed. -/
  broken : Bool := false
  /-- That end of a line, if it counts. -/
  first : Option Char := none
  /-- The later ones, the last one first. -/
  later : List Char := []
deriving Repr, Inhabited

namespace Gap

/-- Adds a blank or an end of a line. -/
def add (g : Gap) (c : Char) : Gap :=
  if isBreak c then
    if g.broken then { g with later := c :: g.later }
    else { g with blanks := [], broken := true, first := some c }
  else if g.broken then g
  else { g with blanks := c :: g.blanks }

/-- What the gap stands for, the last character first. -/
def folded (g : Gap) : List Char :=
  if !g.broken then g.blanks
  else
    match g.first with
    | some '\n' => if g.later.isEmpty then [' '] else g.later
    | some c => g.later ++ [c]
    | none => g.later

end Gap

/-! ## Plain scalars -/

/-- The characters that structure collections in brackets. -/
def isFlowMark (c : Char) : Bool := c == ',' || c == '[' || c == ']' || c == '{' || c == '}'

/-- Reads a plain scalar.  `done` is its text so far, backwards, and `gap` what has been passed since.
Gives the text, whether a line ended after it, and the rest. -/
def plainFrom (inFlow : Bool) (indent : Nat) (done : List Char) (gap : Gap) :
    List Cell → Option (String × Bool × List Cell)
  | [] => some (String.ofList done.reverse, gap.broken, [])
  | c :: cs =>
    let stop := some (String.ofList done.reverse, gap.broken, c :: cs)
    let inGap := gap.broken || !gap.blanks.isEmpty
    if isBlank c.char || isBreak c.char then
      if gap.broken && c.column < indent && c.char == '\t' then none
      else plainFrom inFlow indent done (gap.add c.char) cs
    else if gap.broken && !inFlow && c.column < indent then stop
    else if inGap && (atAnySeparator (c :: cs) || c.char == '#') then stop
    else if inFlow && c.char == ':' &&
        (next? cs).any (fun d => isFlowMark d || d == '?') then none
    else if c.char == ':' && atGap cs then stop
    else if inFlow && isFlowMark c.char then stop
    else plainFrom inFlow indent (c.char :: (gap.folded ++ done)) {} cs

/-! ## Quoted scalars -/

/-- What is expected next inside double quotes. -/
inductive QuoteState where
  | text
  | escape
  /-- So many digits of a character's number are missing. -/
  | code (missing value : Nat)
deriving Repr, Inhabited

/-- The characters that are escaped by one letter. -/
def escapes : List (Char × Char) :=
  [('0', '\x00'), ('a', '\x07'), ('b', '\x08'), ('t', '\t'), ('\t', '\t'), ('n', '\n'), ('v', '\x0b'),
    ('f', '\x0c'), ('r', '\r'), ('e', '\x1b'), (' ', ' '), ('"', '"'), ('/', '/'), ('\\', '\\'),
    ('N', '\u0085'), ('_', '\u00A0'), ('L', '\u2028'), ('P', '\u2029')]

def hexDigit? (c : Char) : Option Nat :=
  if '0' ≤ c && c ≤ '9' then some (c.toNat - '0'.toNat)
  else if 'a' ≤ c && c ≤ 'f' then some (c.toNat - 'a'.toNat + 10)
  else if 'A' ≤ c && c ≤ 'F' then some (c.toNat - 'A'.toNat + 10)
  else none

/-- The character of that number. -/
def charOf? (n : Nat) : Option Char := if n.isValidChar then some (Char.ofNat n) else none

/-- What an escape starts: nothing but a line that goes on, a character, or a character's number. -/
def escape? (c : Char) : Option (Option Char × QuoteState) :=
  match c with
  | 'x' => some (none, .code 2 0)
  | 'u' => some (none, .code 4 0)
  | 'U' => some (none, .code 8 0)
  | c => (escapes.lookup c).map fun d => (some d, .text)

/-- Reads a scalar in double quotes after the first of them. -/
def doubleFrom (state : QuoteState) (done : List Char) (gap : Gap) :
    List Cell → Option (String × List Cell)
  | [] => none
  | c :: cs =>
    match state with
    | .escape =>
      if isBreak c.char then doubleFrom .text done { broken := true } cs
      else
        match escape? c.char with
        | some (some d, state) => doubleFrom state (d :: done) {} cs
        | some (none, state) => doubleFrom state done {} cs
        | none => none
    | .code missing value =>
      match hexDigit? c.char with
      | none => none
      | some d =>
        let value := value * 16 + d
        if missing ≤ 1 then
          match charOf? value with
          | some d => doubleFrom .text (d :: done) {} cs
          | none => none
        else doubleFrom (.code (missing - 1) value) done {} cs
    | .text =>
      if isBlank c.char || isBreak c.char then doubleFrom .text done (gap.add c.char) cs
      else if atAnySeparator (c :: cs) then none
      else
        let done := gap.folded ++ done
        if c.char == '"' then some (String.ofList done.reverse, cs)
        else if c.char == '\\' then doubleFrom .escape done {} cs
        else doubleFrom .text (c.char :: done) {} cs

/-- Reads a scalar in single quotes after the first of them; two quotes stand for one. -/
def singleFrom (done : List Char) (gap : Gap) : List Cell → Option (String × List Cell)
  | [] => none
  | c :: cs =>
    if isBlank c.char || isBreak c.char then singleFrom done (gap.add c.char) cs
    else if atAnySeparator (c :: cs) then none
    else
      let done := gap.folded ++ done
      if c.char == '\'' then
        match cs with
        | d :: rest =>
          if d.char == '\'' then singleFrom ('\'' :: done) {} rest
          else some (String.ofList done.reverse, cs)
        | [] => some (String.ofList done.reverse, [])
      else singleFrom (c.char :: done) {} cs

/-! ## Block scalars -/

/-- What becomes of the ends of lines at the end of a block. -/
inductive Chomp where
  | strip
  | clip
  | keep
deriving DecidableEq, Repr, Inhabited

/-- The marks after the sign of a block: how it ends, and how much it is indented, if that is said. -/
structure BlockHeader where
  chomp : Option Chomp := none
  indent : Option Nat := none
deriving Repr, Inhabited

/-- Reads the marks of a block; each kind may be there once. -/
def blockHeader? (h : BlockHeader) : List Cell → Option (BlockHeader × List Cell)
  | [] => some (h, [])
  | c :: cs =>
    if c.char == '+' || c.char == '-' then
      if h.chomp.isSome then some (h, c :: cs)
      else blockHeader? { h with chomp := some (if c.char == '+' then .keep else .strip) } cs
    else if c.char.isDigit then
      if h.indent.isSome then some (h, c :: cs)
      else if c.char == '0' then none
      else blockHeader? { h with indent := some (c.char.toNat - '0'.toNat) } cs
    else some (h, c :: cs)

/-- Passes empty lines and the indentation of the next one, of at most `indent` columns if that is known.
Gives the ends of lines, the last one first, the largest column that was reached, and the rest. -/
def blockBreaks (indent : Option Nat) (breaks : List Char) (reached : Nat) :
    List Cell → Option (List Char × Nat × List Cell)
  | [] => some (breaks, reached, [])
  | c :: cs =>
    let outside := indent.all fun n => decide (c.column < n)
    if outside && c.char == ' ' then blockBreaks indent breaks reached cs
    else if outside && c.char == '\t' then none
    else
      let reached := max reached c.column
      if isBreak c.char then blockBreaks indent (c.char :: breaks) reached cs
      else some (breaks, reached, c :: cs)

structure Block where
  /-- The text so far, backwards. -/
  done : List Char := []
  /-- The end of the last line. -/
  ending : List Char := []
  /-- The ends of the empty lines after it, backwards. -/
  later : List Char := []
  /-- The last line starts with a blank. -/
  indented : Bool := false
deriving Repr, Inhabited

/-- What stands between the last line and the next, backwards. -/
def Block.between (b : Block) (folds nextIndented : Bool) : List Char :=
  if folds && b.ending == ['\n'] && !b.indented && !nextIndented then
    if b.later.isEmpty then [' '] else b.later
  else b.later ++ b.ending

/-- Reads the lines of a block, at most `bound` of them. -/
def blockLines (folds : Bool) (indent : Nat) :
    Nat → Block → List Cell → Option (Block × List Cell)
  | 0, b, cs => some (b, cs)
  | _, b, [] => some (b, [])
  | bound + 1, b, c :: cs =>
    if c.column != indent then some (b, c :: cs)
    else
      let (line, rest) := spanCells (!isBreak ·) (c :: cs)
      let done := line.reverse ++ (b.between folds (isBlank c.char) ++ b.done)
      let ending := (rest.take 1).map Cell.char
      match blockBreaks (some indent) [] 0 rest.tail with
      | none => none
      | some (later, _, rest) =>
        blockLines folds indent bound ⟨done, ending, later, isBlank c.char⟩ rest

/-- Reads a block scalar after its sign; `parent` is the indentation of what it stands in. -/
def block? (folds : Bool) (parent : Option Nat) (cs : List Cell) : Option (String × List Cell) := do
  let (header, cs) ← blockHeader? {} cs
  let cs ← skipLineEnd? cs
  let given := header.indent.map fun n => parent.getD 0 + n
  let (later, reached, cs) ← blockBreaks given [] 0 cs
  let least := match parent with
    | some n => n + 1
    | none => 1
  let indent := given.getD (max reached (max least 1))
  let (b, cs) ← blockLines folds indent (cs.length + 1) { later } cs
  let ending := if header.chomp == some .strip then [] else b.ending
  let later := if header.chomp == some .keep then b.later else []
  pure (String.ofList (later ++ ending ++ b.done).reverse, cs)

end Utterance.Yaml
