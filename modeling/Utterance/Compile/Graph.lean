import Utterance.Compile.Build
import Utterance.Compile.Count

/-!
# The graph of a set of intents

From the start state an edge leads into each intent, where all its sentences begin; all their ends lead to
one final state.  Where there are several intents, their edges may carry the counts of their sentences and
weights inverse to these.
-/

namespace Utterance

structure CompileOptions where
  /-- Weights and counts are put on the intents' edges if there are several intents. -/
  addWeights : Bool := true
  /-- In the counts, a slot stands for one sentence and not for one for each value. -/
  excludeSlots : Bool := true
  /-- Slots are replaced by their values; otherwise only their names are marked. -/
  expandSlots : Bool := true
deriving DecidableEq, Repr, Inhabited

abbrev EdgeWeight := Option (Nat × Float)

/-- The largest count that an edge can carry. -/
def maxEdgeCount : Nat := 18446744073709551615

def Edge.decorate (w : EdgeWeight) (e : Edge) : Edge :=
  match w with
  | some (count, weight) => { e with weight := some weight, count := some (min count maxEdgeCount) }
  | none => e

def edgeWeights (l : IntentSentences) (t : Table) (o : CompileOptions) :
    Except ReferenceError (List EdgeWeight) :=
  if o.addWeights && 1 < l.length then do
    let counts := (← intentCounts l t o.excludeSlots).map Prod.snd
    pure ((counts.zip (intentWeights counts)).map some)
  else .ok (l.map fun _ => none)

/-- Builds the sentences of one intent from its edge on and lists their ends. -/
def buildIntent (t : Table) (expand : Bool) (g : Graph) (start : Nat) (intent : String)
    (sentences : List Sentence) (w : EdgeWeight) : Built (List Nat) :=
  let s := g.size
  let g := g.addState.addEdge start s "" (Control.intent intent).text
  buildEach expand false (g.modifyEdge start s (Edge.decorate w)) s
    (sentences.map (Sentence.unfold t intent))

def buildIntents (t : Table) (expand : Bool) (g : Graph) (start : Nat) :
    List ((String × List Sentence) × EdgeWeight) → Built (List Nat)
  | [] => .done g []
  | ((intent, sentences), w) :: rest =>
    (buildIntent t expand g start intent sentences w).andThen fun g exits =>
      (buildIntents t expand g start rest).andThen fun g more => .done g (exits ++ more)

/-- Compiles the sentences of all intents into one graph. -/
def Graph.ofSentences (l : IntentSentences) (t : Table) (o : CompileOptions := {}) :
    Except ReferenceError Graph := do
  let weights ← edgeWeights l t o
  let g := Graph.setStart (Graph.addState {}) 0
  match buildIntents t o.expandSlots g 0 (l.zip weights) with
  | .stopped _ e => .error e
  | .done g exits =>
    let (g, s) := g.join exits
    .ok (g.setFinal s)

end Utterance
