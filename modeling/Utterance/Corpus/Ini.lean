import Utterance.Corpus.Basic

/-!
# Reading corpora

A corpus is written as sections, one for each intent:

```text
[Greet]
hello [world]
name = (ann | bob)
```

A line with an equals sign declares a rule and any other line is a sentence.  Blank lines and lines that
start with `#` or `;` are skipped.  In one section a line that is repeated, or a rule that is declared
again, stays where it was first and takes its latest value.
-/

namespace Utterance

/-- What a reader of corpora may leave out or change. -/
structure LoadOptions where
  /-- Sections with other names are left out. -/
  accepts : String → Bool := fun _ => true
  /-- Changes every sentence, and every rule's body, before it is read. -/
  transform : String → String := id
  /-- Paths that do not exist are passed over. -/
  skipMissing : Bool := false

namespace Ini

/-- A line of a section: a sentence, or a rule's name with its body. -/
structure Entry where
  key : String
  value : Option String
  line : Nat
deriving Repr, Inhabited

structure Section where
  name : String
  entries : List Entry
deriving Repr, Inhabited

/-- Puts an entry in the place of the one with its key, or at the end. -/
def upsert (e : Entry) : List Entry → List Entry
  | [] => [e]
  | old :: rest => if old.key == e.key then e :: rest else old :: upsert e rest

inductive Line where
  | skip
  | header (name : String)
  | entry (key : String) (value : Option String)
deriving Repr, Inhabited

/-- The name in a header, given the text after its opening bracket. -/
def headerName? (cs : List Char) : Option (List Char) :=
  if cs.getLast? == some ']' then some (Text.trim cs.dropLast) else none

/-- Reads a line that has no blanks around it. -/
def Line.read (cs : List Char) : Line :=
  match cs with
  | [] => .skip
  | '#' :: _ => .skip
  | ';' :: _ => .skip
  | c :: rest =>
    match if c == '[' then headerName? rest else none with
    | some name => .header (String.ofList name)
    | none =>
      match Text.cutAt? '=' cs with
      | some (key, value) =>
        .entry (String.ofList (Text.trim key)) (some (String.ofList (Text.trim value)))
      | none => .entry (String.ofList cs) none

/-- The section of that name is there, at the end if it is new. -/
def openSection (name : String) : List Section → List Section
  | [] => [⟨name, []⟩]
  | s :: rest => if s.name == name then s :: rest else s :: openSection name rest

def addEntry (name : String) (e : Entry) : List Section → List Section
  | [] => []
  | s :: rest =>
    if s.name == name then { s with entries := upsert e s.entries } :: rest
    else s :: addEntry name e rest

/-- The sections of the lines, given those before them and the name of the one that is open. -/
def readLines (file : String) (sections : List Section) (current : Option String) :
    List (List Char × Nat) → Except SyntaxError (List Section)
  | [] => .ok sections
  | (cs, n) :: rest =>
    match Line.read cs with
    | .skip => readLines file sections current rest
    | .header name => readLines file (openSection name sections) (some name) rest
    | .entry key value =>
      match current with
      | some name => readLines file (addEntry name ⟨key, value, n⟩ sections) current rest
      | none =>
        .error ((⟨.outsideSection, 0⟩ : Template.Fault).toSyntaxError (String.ofList cs)
          (some ⟨file, n, none⟩))

def sections (text file : String) : Except SyntaxError (List Section) :=
  readLines file [] none (((Text.lines text.toList).map Text.trim).zipIdx 1)

/-- A backslash before an opening bracket keeps a sentence from being read as a header. -/
def unescapeBracket (s : String) : String :=
  match s.toList with
  | '\\' :: '[' :: rest => String.ofList ('[' :: rest)
  | _ => s

/-- The sentence or rule that an entry declares. -/
def Entry.item (options : LoadOptions) (file intent : String) (e : Entry) :
    Except SyntaxError CorpusItem :=
  let origin : Origin := ⟨file, e.line, some intent⟩
  match e.value with
  | none =>
    (Sentence.parse (options.transform (unescapeBracket e.key)) (some origin)).map .sentence
  | some value =>
    let body := options.transform (unescapeBracket value)
    (Rule.parse ("<" ++ e.key ++ "> = (" ++ body ++ ");") (some origin)).map .rule

def Section.toIntent (options : LoadOptions) (file : String) (s : Section) :
    Except SyntaxError IntentSection := do
  let items ← s.entries.mapM (Entry.item options file s.name)
  pure ⟨s.name, items⟩

end Ini

/-- Reads a corpus.  `file` is the name that messages give for the text. -/
def Corpus.parse (text file : String) (options : LoadOptions := {}) : Except SyntaxError Corpus := do
  let sections ← Ini.sections text file
  let accepted := sections.filter fun s => options.accepts s.name
  let intents ← accepted.mapM (Ini.Section.toIntent options file)
  pure ⟨intents⟩

end Utterance
