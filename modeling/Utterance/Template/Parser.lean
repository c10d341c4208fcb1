import Utterance.Text.Blank
import Utterance.Template.Expr
import Utterance.Template.Error

/-!
# Reading templates

One pass over the characters.  Literal characters wait until a bracket, a bar or the end of the text turns
them into words and slots; what is being read between two brackets is a `Level`, and the brackets that are
still open form a stack of `Frame`s, so the reader is a single loop on the rest of the text.  A backslash
takes the next character literally, and a literal character taken so never separates words and never starts
a suffix.

Each reader of a part says how many characters it took, so the rest of the text is visibly shorter.
-/

namespace Utterance.Template

/-- A literal character at a position of the text. -/
structure Glyph where
  char : Char
  escaped : Bool
  pos : Nat
deriving DecidableEq, Repr, Inhabited

/-- The glyph is the character `c` and means what `c` means. -/
def Glyph.marks (c : Char) (g : Glyph) : Bool := !g.escaped && g.char == c

/-- The glyph separates words. -/
def Glyph.isGap (g : Glyph) : Bool := !g.escaped && Text.isBlank g.char

def charsOf (l : List Glyph) : List Char := l.map Glyph.char

/-- The words of a substitution, with or without a pair of parentheses around them. -/
def substitutionWords (cs : List Char) : List String :=
  let t := Text.trim cs
  let t := match t with
    | '(' :: rest => rest
    | _ => t
  let t := if t.getLast? == some ')' then t.dropLast else t
  (Text.words t).map String.ofList

/-- Cuts `host:substitution!converter!converter` at its marks.  The first `:` before any `!` starts the
substitution; converters without a name do not count. -/
def cutSuffix (l : List Glyph) : List Glyph × Suffix :=
  let head := l.takeWhile (!·.marks '!')
  let tail := l.dropWhile (!·.marks '!')
  let substitution := match head.dropWhile (!·.marks ':') with
    | [] => none
    | _ :: rest => some (substitutionWords (charsOf rest))
  let converters := (Text.splitAt (·.marks '!') tail).filter (!·.isEmpty)
  (head.takeWhile (!·.marks ':'), ⟨substitution, converters.map fun c => String.ofList (charsOf c)⟩)

/-- The word or slot that a run of glyphs without gaps stands for. -/
def tokenExpr : List Glyph → Except Fault Expr
  | [] => .ok Expr.emptyWord
  | first :: rest =>
    let isSlot := first.marks '$'
    let (host, suffix) := cutSuffix (if isSlot then rest else first :: rest)
    if isSlot then
      if host.isEmpty then .error ⟨.emptySlot, first.pos⟩
      else
        .ok (.slot (String.ofList (charsOf (first :: rest))) (String.ofList (charsOf host))
          suffix none)
    else if host.isEmpty && !suffix.isEmpty then .error ⟨.suffixAlone, first.pos⟩
    else .ok (.word (String.ofList (charsOf host)) suffix none)

/-- The words and slots in a run of literal characters. -/
def literalExprs (l : List Glyph) : Except Fault (List Expr) :=
  (Text.splitRuns Glyph.isGap [] l).mapM tokenExpr

/-- The text with its escapes resolved. -/
def unescape : List Char → List Char
  | [] => []
  | '\\' :: c :: rest => c :: unescape rest
  | '\\' :: [] => []
  | c :: rest => c :: unescape rest

/-- A piece of the source as it is shown: without escapes and without blanks around it. -/
def sourceText (cs : List Char) : String := String.ofList (Text.trim (unescape cs))

/-- The characters that have a meaning of their own outside words. -/
def isStructural (c : Char) : Bool :=
  c == '(' || c == ')' || c == '[' || c == ']' || c == '<' || c == '>' || c == '\x7b' ||
    c == '\x7d' || c == '|'

/-- The leading characters up to and including the first `)`. -/
def throughParenthesis? (cs : List Char) : Option (List Char) :=
  if cs.contains ')' then some (cs.takeWhile (· != ')') ++ [')']) else none

/-- The text of one suffix of a group: a parenthesised text, or all up to the next mark or blank. -/
def suffixText? : List Char → Option (List Char)
  | '(' :: rest => throughParenthesis? ('(' :: rest)
  | cs => some (cs.takeWhile fun c => !(Text.isBlank c || c == ':' || c == '!' || isStructural c))

/-- The names in the text of a converter suffix. -/
def converterNames (cs : List Char) : List (List Char) :=
  let name := Text.dropEndWhile (· == ')') ((Text.trim cs).dropWhile (· == '('))
  if name.isEmpty then [] else Text.splitAt (· == '!') name

/-- Adds the suffixes that follow a group to `suffix`.  The last substitution wins and converters add up.
Also says how many characters the suffixes take. -/
def readSuffix (pos : Nat) (cs : List Char) (suffix : Suffix) : Except Fault (Suffix × Nat) :=
  match cs with
  | [] => .ok (suffix, 0)
  | c :: rest =>
    if c == ':' || c == '!' then
      match suffixText? rest with
      | none => .error ⟨.missingParenthesis, pos⟩
      | some text =>
        if c == ':' then do
          let (suffix, n) ← readSuffix (pos + 1 + text.length) (rest.drop text.length)
            { suffix with substitution := some (substitutionWords text) }
          pure (suffix, 1 + text.length + n)
        else
          match converterNames text with
          | [] => .error ⟨.emptyConverter, pos⟩
          | names => do
            let (suffix, n) ← readSuffix (pos + 1 + text.length) (rest.drop text.length)
              { suffix with converters := suffix.converters ++ names.map String.ofList }
            pure (suffix, 1 + text.length + n)
    else .ok (suffix, 0)
termination_by cs.length
decreasing_by all_goals simp only [List.length_drop, List.length_cons]; omega

/-- A suffix would start here. -/
def startsSuffix : List Char → Bool
  | c :: _ => c == ':' || c == '!'
  | [] => false

/-- Reads a rule reference whose `<` is at `pos` and before `cs`.  Also says how many characters of `cs`
it takes. -/
def readRule (grammar : Option String) (pos : Nat) (cs : List Char) : Except Fault (Expr × Nat) :=
  let raw := cs.takeWhile (· != '>')
  match cs.drop raw.length with
  | [] => .error ⟨.unclosed '>', pos⟩
  | _ :: rest =>
    let full := Text.trim (unescape raw)
    if full.isEmpty then .error ⟨.emptyRule, pos⟩
    else if startsSuffix rest then .error ⟨.ruleSuffix, pos + raw.length + 2⟩
    else
      let (g, name) := match Text.cutAtLast? '.' full with
        | some (g, name) => (some (String.ofList g), name)
        | none => (grammar, full)
      let text := String.ofList ('<' :: raw ++ ['>'])
      .ok (.rule ⟨text, String.ofList name, g⟩ none, raw.length + 1)

/-- The glyphs of a tag up to its closing brace, and how many characters they and the brace take. -/
def tagGlyphs (pos : Nat) : List Char → Option (List Glyph × Nat)
  | [] => none
  | '\x7d' :: _ => some ([], 1)
  | '\\' :: c :: rest =>
    (tagGlyphs (pos + 2) rest).map fun (l, n) => (⟨c, true, pos + 1⟩ :: l, n + 2)
  | '\\' :: [] => none
  | c :: rest => (tagGlyphs (pos + 1) rest).map fun (l, n) => (⟨c, false, pos⟩ :: l, n + 1)

/-- Reads a tag whose opening brace is at `pos` and before `cs`.  Also says how many characters of `cs` it
takes. -/
def readTag (pos : Nat) (cs : List Char) : Except Fault (Tag × Nat) :=
  match tagGlyphs (pos + 1) cs with
  | none => .error ⟨.unclosed '\x7d', pos⟩
  | some (glyphs, n) =>
    if startsSuffix (cs.drop n) then .error ⟨.tagSuffix, pos + 1 + n⟩
    else
      let (host, suffix) := cutSuffix glyphs
      let name := Text.trim (charsOf host)
      if name.isEmpty then .error ⟨.emptyTag, pos⟩
      else .ok (⟨String.ofList name, suffix⟩, n)

/-- The expression for one branch of an alternative whose bracket is at `pos`. -/
def branchExpr (pos : Nat) : List Expr → Except Fault Expr
  | [] => .error ⟨.emptyAlternative, pos⟩
  | [e] => .ok e
  | items => .ok (.seq .group (" ".intercalate (items.map Expr.text)) items {} none)

inductive Bracket where
  | round
  | square
deriving DecidableEq, Repr, Inhabited

def Bracket.closer : Bracket → Char
  | round => ')'
  | square => ']'

/-- The sequence for the branches between a pair of brackets, the first of which is at `pos`.  Round
brackets group a single branch; square ones always add the empty word as a further choice. -/
def Bracket.sequence (pos : Nat) (branches : List (List Expr)) :
    Bracket → Except Fault (SequenceKind × List Expr)
  | round =>
    match branches with
    | [items] => .ok (.group, items)
    | _ => do
      let items ← branches.mapM (branchExpr pos)
      pure (.alternative, items)
  | square => do
    let items ← match branches with
      | [[]] => pure []
      | _ => branches.mapM (branchExpr pos)
    pure (.alternative, items ++ [Expr.emptyWord])

/-- The branches read so far at one depth of brackets; both lists are newest first. -/
structure Level where
  finished : List (List Expr) := []
  current : List Expr := []
deriving Inhabited

namespace Level

def push (e : Expr) (l : Level) : Level := { l with current := e :: l.current }

/-- Appends the words and slots in the pending literal characters, which are held newest first. -/
def flush (pending : List Glyph) (l : Level) : Except Fault Level := do
  let exprs ← literalExprs pending.reverse
  pure { l with current := exprs.reverse ++ l.current }

/-- Ends the current branch and starts another. -/
def nextBranch (l : Level) : Level := ⟨l.current.reverse :: l.finished, []⟩

def branches (l : Level) : List (List Expr) := l.nextBranch.finished.reverse

/-- Puts a tag on the latest expression of the branch. -/
def tagLast? (t : Tag) (l : Level) : Option Level :=
  match l.current with
  | [] => none
  | e :: es => some { l with current := e.withTag t :: es }

end Level

/-- An open bracket: the text after it, and the level that it interrupts. -/
structure Frame where
  bracket : Bracket
  pos : Nat
  inner : List Char
  outer : Level
deriving Inhabited

/-- What a character means outside escapes. -/
inductive Mark where
  | escape
  | opening (b : Bracket)
  | closing
  | rule
  | tag
  | bar
  | colon
  | literal
deriving DecidableEq, Repr, Inhabited

def Mark.ofChar (c : Char) : Mark :=
  if c == '\\' then .escape
  else if c == '(' then .opening .round
  else if c == '[' then .opening .square
  else if c == ')' || c == ']' || c == '>' || c == '\x7d' then .closing
  else if c == '<' then .rule
  else if c == '\x7b' then .tag
  else if c == '|' then .bar
  else if c == ':' then .colon
  else .literal

/-- A parenthesised substitution of a word starts at a colon before `cs`: the word is there, and a
parenthesis follows at once. -/
def opensSubstitution (pending : List Glyph) (cs : List Char) : Bool :=
  cs.head? == some '(' && pending.head?.any (!·.isGap)

/-- The glyphs of a parenthesised substitution, newest first. -/
def substitutionGlyphs (pos : Nat) (text : List Char) : List Glyph :=
  (text.zipIdx (pos + 1)).reverse.map (fun (c, p) => ⟨c, true, p⟩) ++ [⟨':', false, pos⟩]

/-- Reads the rest `cs` of a text, which starts at `pos`, and returns the branches of the outermost level.
`grammar` is the grammar of rules that name none. -/
def readBranches (grammar : Option String) (pos : Nat) (cs : List Char) (frames : List Frame)
    (level : Level) (pending : List Glyph) : Except Fault (List (List Expr)) :=
  match cs with
  | [] =>
    match frames with
    | [] => do
      let level ← level.flush pending
      pure level.branches
    | f :: _ => .error ⟨.unclosed f.bracket.closer, f.pos⟩
  | c :: rest =>
    match Mark.ofChar c with
    | .escape =>
      match rest with
      | [] => readBranches grammar (pos + 1) [] frames level pending
      | e :: rest => readBranches grammar (pos + 2) rest frames level (⟨e, true, pos + 1⟩ :: pending)
    | .opening b => do
      let level ← level.flush pending
      readBranches grammar (pos + 1) rest (⟨b, pos, rest, level⟩ :: frames) {} []
    | .closing =>
      match frames with
      | [] => .error ⟨.unexpected c, pos⟩
      | f :: frames =>
        if c == f.bracket.closer then do
          let level ← level.flush pending
          let text := sourceText (f.inner.take (f.inner.length - (rest.length + 1)))
          let (kind, items) ← f.bracket.sequence f.pos level.branches
          let (suffix, n) ← readSuffix (pos + 1) rest {}
          let e := .seq kind text items suffix none
          readBranches grammar (pos + 1 + n) (rest.drop n) frames (f.outer.push e) []
        else .error ⟨.unexpected c, pos⟩
    | .rule => do
      let level ← level.flush pending
      let (e, n) ← readRule grammar pos rest
      readBranches grammar (pos + 1 + n) (rest.drop n) frames (level.push e) []
    | .tag => do
      let level ← level.flush pending
      let (t, n) ← readTag pos rest
      match level.tagLast? t with
      | none => .error ⟨.tagAlone, pos⟩
      | some level => readBranches grammar (pos + 1 + n) (rest.drop n) frames level []
    | .bar => do
      let level ← level.flush pending
      readBranches grammar (pos + 1) rest frames level.nextBranch []
    | .colon =>
      if opensSubstitution pending rest then
        match throughParenthesis? rest with
        | none => .error ⟨.missingParenthesis, pos⟩
        | some text =>
          readBranches grammar (pos + 1 + text.length) (rest.drop text.length) frames level
            (substitutionGlyphs pos text ++ pending)
      else readBranches grammar (pos + 1) rest frames level (⟨c, false, pos⟩ :: pending)
    | .literal => readBranches grammar (pos + 1) rest frames level (⟨c, false, pos⟩ :: pending)
termination_by cs.length
decreasing_by
  all_goals simp only [List.length_drop, List.length_cons, List.length_nil]
  all_goals omega

def readItems (grammar : Option String) (text : List Char) : Except Fault (List Expr) := do
  match ← readBranches grammar 0 text [] {} [] with
  | [items] => pure items
  | branches =>
    let items ← branches.mapM (branchExpr 0)
    pure [.seq .alternative (String.ofList (Text.trim text)) items {} none]

end Template

def Sentence.parse (text : String) (origin : Option Origin := none) :
    Except SyntaxError Sentence :=
  match Template.readItems (origin.bind Origin.intent) text.toList with
  | .ok items => .ok ⟨text, items⟩
  | .error fault => .error (fault.toSyntaxError text origin)

end Utterance
