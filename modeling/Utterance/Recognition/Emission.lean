import Utterance.Recognition.Error
import Utterance.Search.Basic
import Utterance.Template.Expr

/-!
# What the steps of a path give

A step gives the word that is heard on the way into its target, the label of its edge, unpacked, and the
tokens it matched.  Where the label is a wildcard, the matched tokens are said.
-/

namespace Utterance

structure Emission where
  /-- The word heard on the way into the target; empty if there is none. -/
  raw : String
  label : String
  matched : List String
deriving DecidableEq, Repr, Inhabited

namespace Emission

/-- The name of the intent that the label starts. -/
def intent? (e : Emission) : Option String := Label.intent? e.label

/-- The emission takes part in the interpretation: it starts no intent, and something is heard or said. -/
def counts (e : Emission) : Bool := e.intent?.isNone && !(e.raw.isEmpty && e.label.isEmpty)

end Emission

def Graph.emission (g : Graph) (s : PathStep) : Except InterpretError Emission :=
  match g.edge? s.source s.target with
  | none => .error (.noEdge s.source s.target)
  | some e =>
    let label := if e.output == wildcard then " ".intercalate s.matched else e.output
    match Label.unpack? label with
    | none => .error (.badLabel label)
    | some label => .ok ⟨(g.word? s.target).getD "", label, s.matched⟩

/-- What all steps give, in the order of the path. -/
def Graph.emissions (g : Graph) (p : Path) : Except InterpretError (List Emission) :=
  p.mapM g.emission

/-- The intent that was entered last; empty if none was. -/
def intentOf (l : List Emission) : String := (l.reverse.findSome? Emission.intent?).getD ""

end Utterance
