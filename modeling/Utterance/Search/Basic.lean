import Utterance.Graph.Basic

/-!
# Paths through a graph

A search follows edges from the start state.  A path is the list of its steps, and every step holds the
tokens of the input that it matched, so that a path tells both how the graph was crossed and what was heard
on the way.
-/

namespace Utterance

structure PathStep where
  source : Nat
  target : Nat
  matched : List String := []
deriving DecidableEq, Repr, Inhabited

abbrev Path := List PathStep

structure SearchOptions where
  /-- The intents that may be entered. -/
  accepts : String → Bool := fun _ => true
  /-- Words of the graph and tokens of the input are compared after this. -/
  transform : String → String := id

/-- The edge does not enter an intent that is not accepted. -/
def SearchOptions.permits (o : SearchOptions) (e : Edge) : Bool :=
  match Label.intent? e.output with
  | some intent => o.accepts intent
  | none => true

/-- A word of the graph and a token of the input are the same. -/
def SearchOptions.same (o : SearchOptions) (word token : String) : Bool :=
  o.transform word == o.transform token

/-- The edges that may be taken from a state. -/
def Graph.permitted (g : Graph) (o : SearchOptions) (s : Nat) : List Edge :=
  (g.edgesFrom s).filter o.permits

end Utterance
