import Utterance.Proofs.Text.Blank
import Utterance.Template.Parser

/-!
# Writing templates

The text of a tree (`Expr.write`) has a backslash before every character of a
word, a slot name or the name of a word's converter, so that nothing in them is
taken for a mark.  What stands in other places is written as it is, and
`Expr.Writable` says which trees can be written so: the words of a substitution
hold no blank and no parenthesis that closes it early, the converters of a
sequence hold no mark, and rule names hold neither `>` nor a backslash.  In
tags some characters have a backslash and others not; which ones is left open,
as long as the marks of a tag have one.

The texts that a tree holds for showing it are not written.  `Expr.asRead` is
the tree with the texts that it gets when it is read.
-/

namespace Utterance

open Text (trim isBlank IsWord)
open Template (sourceText isStructural Bracket)

/-! ## Characters -/

/-- A text with a backslash before the characters for which `shielded` holds. -/
def shield (shielded : Char → Bool) (cs : List Char) : List Char :=
  cs.flatMap fun c => if shielded c then ['\\', c] else [c]

/-- A text with a backslash before every character. -/
def escape (cs : List Char) : List Char := shield (fun _ => true) cs

theorem escape_cons (c : Char) (cs : List Char) : escape (c :: cs) = '\\' :: c :: escape cs := rfl

/-- What a text may hold where it is followed by a suffix or by nothing: a mark ends it. -/
def endsSuffix (c : Char) : Bool := isBlank c || c == ':' || c == '!' || isStructural c

/-- A character that has a backslash, or else is no mark of a tag. -/
def Inert (shielded : Char → Bool) (c : Char) : Prop :=
  shielded c = true ∨ c ≠ '!' ∧ c ≠ '\\' ∧ c ≠ '\x7d'

/-! ## Suffixes and tags -/

namespace Suffix

/-- The text of a suffix.  `words` and `name` say how a substitution and the name of a converter are
written. -/
def write (words name : List Char → List Char) (s : Suffix) : List Char :=
  (s.substitution.elim [] fun ws =>
      ':' :: '(' :: words ([' '].intercalate (ws.map String.toList)) ++ [')']) ++
    s.converters.flatMap fun n => '!' :: name n.toList

/-- The suffix may be written where `inWord` holds of the characters of its words and `inName` of those
of its converters. -/
structure Writable (inWord inName : Char → Prop) (s : Suffix) : Prop where
  word : ∀ ws ∈ s.substitution, ∀ w ∈ ws, IsWord w.toList ∧ ∀ c ∈ w.toList, inWord c
  name : ∀ n ∈ s.converters, n ≠ "" ∧ ∀ c ∈ n.toList, inName c

end Suffix

namespace Tag

/-- What stands between the braces of a tag. -/
def body (shielded : Char → Bool) (t : Tag) : List Char :=
  shield shielded t.name.toList ++ t.suffix.write (shield shielded) (shield shielded)

def write (shielded : Char → Bool) (t : Tag) : List Char :=
  '\x7b' :: (t.body shielded ++ ['\x7d'])

structure Writable (shielded : Char → Bool) (t : Tag) : Prop where
  name_ne : t.name ≠ ""
  trimmed : trim t.name.toList = t.name.toList
  inert : ∀ c ∈ t.name.toList, Inert shielded c ∧ (shielded c = true ∨ c ≠ ':')
  suffix : t.suffix.Writable (Inert shielded) (Inert shielded)

end Tag

/-- The text of the tag that an expression may have. -/
def tagText (shielded : Char → Bool) (g : Option Tag) : List Char := g.elim [] (Tag.write shielded)

/-! ## Rules -/

/-- The name of a rule or a grammar that may stand in a reference. -/
structure RefName (name : String) : Prop where
  ne : name ≠ ""
  trimmed : trim name.toList = name.toList
  not_closer : '>' ∉ name.toList
  not_escape : '\\' ∉ name.toList

structure RuleRef.Writable (r : RuleRef) : Prop where
  name : RefName r.name
  not_dot : '.' ∉ r.name.toList
  grammar : ∀ g ∈ r.grammar, RefName g

def RuleRef.write (r : RuleRef) : List Char := '<' :: (r.fullName.toList ++ ['>'])

/-! ## Expressions -/

def Template.Bracket.opener : Bracket → Char
  | round => '('
  | square => '['

namespace Expr

/-- The word that closes an optional. -/
def isEmptyWord : Expr → Bool
  | word t s g => t.isEmpty && s.isEmpty && g.isNone
  | _ => false

/-- The sequence is written in square brackets. -/
def inSquares (kind : SequenceKind) (items : List Expr) : Bool :=
  kind == .alternative && items.getLast?.any isEmptyWord

def bracket (kind : SequenceKind) (items : List Expr) : Bracket :=
  if inSquares kind items then .square else .round

/-- What stands between the brackets of a sequence whose items are written as `texts`. -/
def between (kind : SequenceKind) (items : List Expr) (texts : List (List Char)) : List Char :=
  match kind with
  | .group => [' '].intercalate texts
  | .alternative =>
    [' ', '|', ' '].intercalate (if inSquares .alternative items then texts.dropLast else texts)

variable (shielded : Char → Bool) (grammar : Option String)

mutual

/-- The text of an expression. -/
def write : Expr → List Char
  | word t s g => escape t.toList ++ s.write id escape ++ tagText shielded g
  | seq k _ items s g =>
    (bracket k items).opener :: between k items (writeEach items) ++ (bracket k items).closer ::
      s.write id id ++ tagText shielded g
  | rule r g => r.write ++ tagText shielded g
  | slot _ n s g => '$' :: escape n.toList ++ s.write id escape ++ tagText shielded g

def writeEach : List Expr → List (List Char)
  | [] => []
  | e :: es => write e :: writeEach es

end

mutual

/-- The expression with the texts that it gets when it is read.  `grammar` is the grammar of the
references that name none. -/
def asRead : Expr → Expr
  | word t s g => word t s g
  | seq k _ items s g =>
    seq k (sourceText (between k items (writeEach shielded items))) (asReadEach items) s g
  | rule r g => rule ⟨String.ofList r.write, r.name, r.grammar.or grammar⟩ g
  | slot _ n s g => slot (String.ofList ('$' :: n.toList ++ s.write id id)) n s g

def asReadEach : List Expr → List Expr
  | [] => []
  | e :: es => asRead e :: asReadEach es

end

theorem writeEach_eq_map (items : List Expr) :
    writeEach shielded items = items.map (write shielded) := by
  induction items with
  | nil => rfl
  | cons e es ih => rw [writeEach, ih, List.map_cons]

theorem asReadEach_eq_map (items : List Expr) :
    asReadEach shielded grammar items = items.map (asRead shielded grammar) := by
  induction items with
  | nil => rfl
  | cons e es ih => rw [asReadEach, ih, List.map_cons]

/-- The trees that can be written. -/
inductive Writable : Expr → Prop where
  | word {t s g} (ht : t ≠ "") (hs : s.Writable (· ≠ ')') fun _ => True)
      (hg : ∀ t ∈ g, t.Writable shielded) : Writable (word t s g)
  | slot {x n s g} (hn : n ≠ "") (hs : s.Writable (· ≠ ')') fun _ => True)
      (hg : ∀ t ∈ g, t.Writable shielded) : Writable (slot x n s g)
  | rule {r g} (hr : r.Writable) (hg : ∀ t ∈ g, t.Writable shielded) : Writable (rule r g)
  | group {x items s g} (hitems : ∀ e ∈ items, Writable e)
      (hs : s.Writable (· ≠ ')') (endsSuffix · = false))
      (hg : ∀ t ∈ g, t.Writable shielded) : Writable (seq .group x items s g)
  | alternative {x items s g} (htwo : 2 ≤ items.length) (hitems : ∀ e ∈ items, Writable e)
      (hs : s.Writable (· ≠ ')') (endsSuffix · = false))
      (hg : ∀ t ∈ g, t.Writable shielded) : Writable (seq .alternative x items s g)
  | optional {x items s g} (hitems : ∀ e ∈ items, Writable e)
      (hs : s.Writable (· ≠ ')') (endsSuffix · = false))
      (hg : ∀ t ∈ g, t.Writable shielded) :
      Writable (seq .alternative x (items ++ [emptyWord]) s g)

variable {shielded}

/-- No tree that can be written is the word that closes an optional. -/
theorem Writable.not_isEmptyWord {e : Expr} (h : e.Writable shielded) : e.isEmptyWord = false := by
  cases h with
  | word ht => simp [isEmptyWord, String.isEmpty_iff, ht]
  | _ => rfl

theorem inSquares_of_writable {items : List Expr} (h : ∀ e ∈ items, e.Writable shielded)
    (kind : SequenceKind) : inSquares kind items = false := by
  cases hlast : items.getLast? with
  | none => simp [inSquares, hlast]
  | some e => simp [inSquares, hlast, (h e (List.mem_of_getLast? hlast)).not_isEmptyWord]

theorem inSquares_optional (items : List Expr) :
    inSquares .alternative (items ++ [emptyWord]) = true := by
  rw [inSquares, List.getLast?_concat]
  rfl

end Expr

end Utterance
