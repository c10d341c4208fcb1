import Utterance.Text.Blank

/-!
# Sentence templates

A template describes the sentences of a voice command.  Its tree has four kinds of nodes: literal words,
sequences of expressions (all of them in order, or one of them), references to named rules, and references
to slots, whose values come from outside.  A node may say something else than what it hears
(a *substitution*), hand what it says to *converters*, and carry a *tag* that names an entity.

`Expr.nodes` lists a tree from its root, and `Expr.mapWords` replaces its words; references are followed
by neither.
-/

namespace Utterance

/-- What may be written after an expression: the words said in its place, and the names of the converters
that what is said goes through. -/
structure Suffix where
  substitution : Option (List String) := none
  converters : List String := []
deriving DecidableEq, Repr, Inhabited

def Suffix.isEmpty (s : Suffix) : Bool := s.substitution.isNone && s.converters.isEmpty

/-- The name of an entity, with a suffix of its own. -/
structure Tag where
  name : String
  suffix : Suffix := {}
deriving DecidableEq, Repr, Inhabited

/-- Whether a sequence stands for all of its items in order, or for exactly one of them. -/
inductive SequenceKind where
  | group
  | alternative
deriving DecidableEq, Repr, Inhabited

/-- A reference `<rule>` or `<grammar.rule>`. -/
structure RuleRef where
  text : String
  name : String
  grammar : Option String := none
deriving DecidableEq, Repr, Inhabited

/-- The name with its grammar before it, where one is given. -/
def RuleRef.fullName (r : RuleRef) : String :=
  match r.grammar with
  | some g => if g.isEmpty then r.name else g ++ "." ++ r.name
  | none => r.name

inductive Expr where
  | word (text : String) (suffix : Suffix) (tag : Option Tag)
  | seq (kind : SequenceKind) (text : String) (items : List Expr) (suffix : Suffix)
      (tag : Option Tag)
  | rule (ref : RuleRef) (tag : Option Tag)
  | slot (text name : String) (suffix : Suffix) (tag : Option Tag)
deriving Repr, Inhabited

/-- The word that any single word of the input matches. -/
def wildcard : String := "*"

namespace Expr

/-- A word without suffix and tag. -/
def plain (text : String) : Expr := .word text {} none

/-- The empty word, which closes every optional. -/
def emptyWord : Expr := plain ""

def text : Expr → String
  | word t _ _ => t
  | seq _ t _ _ _ => t
  | rule r _ => r.text
  | slot t _ _ _ => t

def tag : Expr → Option Tag
  | word _ _ t => t
  | seq _ _ _ _ t => t
  | rule _ t => t
  | slot _ _ _ t => t

/-- The expression with `t` in place of its tag. -/
def withTag (t : Tag) : Expr → Expr
  | word x s _ => word x s (some t)
  | seq k x l s _ => seq k x l s (some t)
  | rule r _ => rule r (some t)
  | slot x n s _ => slot x n s (some t)

def suffix : Expr → Suffix
  | word _ s _ => s
  | seq _ _ _ s _ => s
  | rule _ _ => {}
  | slot _ _ s _ => s

/-- An alternative whose last item is the empty word. -/
def isOptional : Expr → Bool
  | seq .alternative _ items _ _ =>
    match items.getLast? with
    | some (word t _ _) => t.isEmpty
    | _ => false
  | _ => false

mutual

/-- The expression and all expressions inside it, parents first. -/
def nodes : Expr → List Expr
  | word t s g => [word t s g]
  | seq k t items s g => seq k t items s g :: nodesOf items
  | rule r g => [rule r g]
  | slot t n s g => [slot t n s g]

def nodesOf : List Expr → List Expr
  | [] => []
  | e :: es => nodes e ++ nodesOf es

end

mutual

/-- The tree with `f text suffix tag` in place of every word; what `f` puts in is not visited again. -/
def mapWords (f : String → Suffix → Option Tag → Expr) : Expr → Expr
  | word t s g => f t s g
  | seq k t items s g => seq k t (mapWordsOf f items) s g
  | rule r g => rule r g
  | slot t n s g => slot t n s g

def mapWordsOf (f : String → Suffix → Option Tag → Expr) : List Expr → List Expr
  | [] => []
  | e :: es => mapWords f e :: mapWordsOf f es

end

end Expr

/-- The key under which the values of a slot are found: its name, with its arguments, after a dollar. -/
def slotKey (name : String) : String := "$" ++ name

/-- The name of a slot without the arguments that follow it after commas. -/
def slotBase (name : String) : String := (name.pieces ',').headD ""

def slotArgs (name : String) : List String := (name.pieces ',').drop 1

/-- The keys of the slots in a tree, in the order in which they stand. -/
def Expr.slotKeys (e : Expr) : List String :=
  e.nodes.filterMap fun
    | .slot _ name _ _ => some (slotKey name)
    | _ => none

/-- A complete template: its text and the items it consists of, in order. -/
structure Sentence where
  text : String
  items : List Expr
deriving Repr, Inhabited

/-- A sentence is a group without suffix and tag. -/
def Sentence.toExpr (s : Sentence) : Expr := .seq .group s.text s.items {} none

/-- A named template, declared by `<name> = body;`, perhaps with the word `public` before it. -/
structure Rule where
  name : String
  body : Sentence
  isPublic : Bool
  text : String
deriving Repr, Inhabited

end Utterance
