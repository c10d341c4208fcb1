/-!
# Text on a grid

YAML is laid out in lines and columns, so its text is read as a list of cells: characters that know where
they stand.  All ways of ending a line but the two separators are one character here.
-/

namespace Utterance.Yaml

structure Cell where
  char : Char
  line : Nat
  column : Nat
  offset : Nat
deriving DecidableEq, Repr, Inhabited

/-- The character may stand in a document. -/
def isAllowed (c : Char) : Bool :=
  let n := c.toNat
  n == 0x9 || n == 0xA || n == 0xD || (0x20 ≤ n && n ≤ 0x7E) || n == 0x85 ||
    (0xA0 ≤ n && n ≤ 0xD7FF) || (0xE000 ≤ n && n ≤ 0xFFFD && n != 0xFEFF) || 0x10000 ≤ n

/-- Makes every end of a line one line feed, apart from the separators of lines and of paragraphs. -/
def unifyBreaks : List Char → List Char
  | '\r' :: '\n' :: cs => '\n' :: unifyBreaks cs
  | '\r' :: cs => '\n' :: unifyBreaks cs
  | '\u0085' :: cs => '\n' :: unifyBreaks cs
  | c :: cs => c :: unifyBreaks cs
  | [] => []

def isBlank (c : Char) : Bool := c == ' ' || c == '\t'

def isBreak (c : Char) : Bool := c == '\n' || c == '\u2028' || c == '\u2029'

def cellsFrom (line column offset : Nat) : List Char → List Cell
  | [] => []
  | c :: cs =>
    ⟨c, line, column, offset⟩ ::
      if isBreak c then cellsFrom (line + 1) 0 (offset + 1) cs
      else cellsFrom line (column + 1) (offset + 1) cs

/-- The cells of a text, without the mark of byte order that it may start with; none if a character of it may
not stand in a document. -/
def cells? (text : String) : Option (List Cell) :=
  let cs := match text.toList with
    | '\uFEFF' :: cs => cs
    | cs => cs
  if cs.all isAllowed then some (cellsFrom 0 0 0 (unifyBreaks cs)) else none

def next? (cs : List Cell) : Option Char := cs.head?.map Cell.char

def startsWith (c : Char) (cs : List Cell) : Bool := next? cs == some c

/-- Here a word ends: there is a blank, a break or nothing. -/
def atGap (cs : List Cell) : Bool :=
  match next? cs with
  | none => true
  | some c => isBlank c || isBreak c

/-- Here a line ends. -/
def atLineEnd (cs : List Cell) : Bool :=
  match next? cs with
  | none => true
  | some c => isBreak c

/-- Three hyphens or three dots alone at the start of a line separate documents. -/
def atSeparator (mark : Char) : List Cell → Bool
  | a :: b :: c :: rest =>
    a.column == 0 && a.char == mark && b.char == mark && c.char == mark && atGap rest
  | _ => false

def atAnySeparator (cs : List Cell) : Bool := atSeparator '-' cs || atSeparator '.' cs

/-- Splits at the first cell whose character does not fit. -/
def spanCells (p : Char → Bool) (cs : List Cell) : List Char × List Cell :=
  ((cs.takeWhile fun c => p c.char).map Cell.char, cs.dropWhile fun c => p c.char)

def skipBlanks (cs : List Cell) : List Cell := (spanCells isBlank cs).2

/-- Leaves out the rest of the line and its end, if nothing but blanks and a comment is left on it. -/
def skipLineEnd? (cs : List Cell) : Option (List Cell) :=
  let cs := skipBlanks cs
  let cs := if startsWith '#' cs then (spanCells (!isBreak ·) cs).2 else cs
  if atLineEnd cs then some cs.tail else none

/-- Letters, digits, the hyphen and the underscore make up names. -/
def isNameChar (c : Char) : Bool := c.isAlphanum || c == '-' || c == '_'

end Utterance.Yaml
