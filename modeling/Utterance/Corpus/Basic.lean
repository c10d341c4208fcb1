import Utterance.Template.Rule

/-!
# Corpora

A corpus lists intents in the order in which they are first met, each with its sentences and rules in the
order in which they are written.  An intent appears once: what is added under a known name joins what is
there.
-/

namespace Utterance

inductive CorpusItem where
  | sentence (s : Sentence)
  | rule (r : Rule)
deriving Repr, Inhabited

structure IntentSection where
  name : String
  items : List CorpusItem
deriving Repr, Inhabited

structure Corpus where
  sections : List IntentSection := []
deriving Repr, Inhabited

namespace Corpus

def get? (c : Corpus) (name : String) : Option IntentSection :=
  c.sections.find? (·.name == name)

def names (c : Corpus) : List String := c.sections.map IntentSection.name

def isEmpty (c : Corpus) : Bool := c.sections.isEmpty

/-- Appends items to the section of that name in a list; a new section goes to the end. -/
def appendTo (name : String) (items : List CorpusItem) : List IntentSection → List IntentSection
  | [] => [⟨name, items⟩]
  | s :: rest =>
    if s.name == name then { s with items := s.items ++ items } :: rest
    else s :: appendTo name items rest

/-- Appends items to an intent, which is created at the end when it is missing. -/
def append (c : Corpus) (name : String) (items : List CorpusItem) : Corpus :=
  ⟨appendTo name items c.sections⟩

/-- Appends every section of `other`, so that sections of one name become one. -/
def merge (c other : Corpus) : Corpus :=
  other.sections.foldl (fun c s => c.append s.name s.items) c

end Corpus

end Utterance
