import Std.Data.ExtHashMap
import Utterance.Graph.Data

/-!
# Graphs with flags and an index

A graph is kept with more than it takes to know it.  Every state has flags that say whether it is the start or
the final one, and an index holds the position of the edge between two states, so that neither has to be
searched for.  What is kept twice has to be kept in step: a new start takes the flag from the old one, and an
edge that is added for the first time is listed at its source and entered in the index as well.

Without the flags and the index it is a `Graph`, the one that is compiled and searched.
-/

namespace Utterance

/-- What an indexed graph holds for a state: whether it is marked as the start or as the final one, and the word
heard on the way into it. -/
structure StateRecord where
  isStart : Bool := false
  isFinal : Bool := false
  word : Option String := none
deriving DecidableEq, Repr, Inhabited

namespace StateRecord

def markStart (b : Bool) (q : StateRecord) : StateRecord := { q with isStart := b }

def markFinal (b : Bool) (q : StateRecord) : StateRecord := { q with isFinal := b }

end StateRecord

structure IndexedGraph where
  states : Array StateRecord := #[]
  edges : Array Edge := #[]
  /-- For every state the positions of the edges that leave it. -/
  out : Array (Array Nat) := #[]
  /-- The position of the edge from the first state to the second. -/
  index : Std.ExtHashMap (Nat × Nat) Nat := ∅
  start : Option Nat := none
  final : Option Nat := none
deriving BEq, Inhabited

namespace IndexedGraph

/-- The graph, without the flags and the index. -/
def graph (g : IndexedGraph) : Graph where
  nodes := g.states.mapIdx fun s q => ⟨q.word, g.out.getD s #[]⟩
  edges := g.edges
  start := g.start
  final := g.final

/-- The number of states; also the number that the next state will have. -/
def size (g : IndexedGraph) : Nat := g.states.size

/-- Adds a state, the one numbered `g.size`. -/
def addState (g : IndexedGraph) (word : Option String := none) : IndexedGraph :=
  { g with states := g.states.push { word }, out := g.out.push #[] }

/-- Takes a mark from the old state, if there is one, and gives it to the new one. -/
def moveMark (mark : Bool → StateRecord → StateRecord) (old : Option Nat) (new : Nat)
    (states : Array StateRecord) : Array StateRecord :=
  let cleared := match old with
    | some s => states.modify s (mark false)
    | none => states
  cleared.modify new (mark true)

def setStart (g : IndexedGraph) (s : Nat) : IndexedGraph :=
  { g with states := moveMark StateRecord.markStart g.start s g.states, start := some s }

def setFinal (g : IndexedGraph) (s : Nat) : IndexedGraph :=
  { g with states := moveMark StateRecord.markFinal g.final s g.states, final := some s }

/-- The state is marked as the start. -/
def isStart (g : IndexedGraph) (s : Nat) : Bool := (g.states[s]?).any StateRecord.isStart

/-- The state is marked as the final one. -/
def isFinal (g : IndexedGraph) (s : Nat) : Bool := (g.states[s]?).any StateRecord.isFinal

def word? (g : IndexedGraph) (s : Nat) : Option String := (g.states[s]?).bind StateRecord.word

/-- The edges that leave a state, in the order in which they were first added. -/
def edgesFrom (g : IndexedGraph) (s : Nat) : List Edge :=
  (g.out.getD s #[]).toList.filterMap (g.edges[·]?)

def edge? (g : IndexedGraph) (source target : Nat) : Option Edge :=
  (g.index[(source, target)]?).bind (g.edges[·]?)

def modifyEdge (g : IndexedGraph) (source target : Nat) (f : Edge → Edge) : IndexedGraph :=
  match g.index[(source, target)]? with
  | some i => { g with edges := g.edges.modify i f }
  | none => g

/-- Adds the edge between two states, or gives it new labels if it is there. -/
def addEdge (g : IndexedGraph) (source target : Nat) (input output : String) : IndexedGraph :=
  match g.index[(source, target)]? with
  | some i => { g with edges := g.edges.modify i fun e => { e with input, output } }
  | none =>
    let i := g.edges.size
    { g with
      edges := g.edges.push { source, target, input, output }
      out := g.out.modify source (·.push i)
      index := g.index.insert (source, target) i }

/-! ## As data -/

def toData (g : IndexedGraph) : GraphData where
  nodes := g.states.toList.mapIdx fun id q => ⟨id, q.isStart, q.isFinal, q.word⟩
  edges := g.edges.toList

/-- Adds a node for each element, which must be numbered on from the size of the graph. -/
def addNodes (g : IndexedGraph) : List NodeData → Except InvalidGraph IndexedGraph
  | [] => .ok g
  | n :: rest =>
    if n.id == g.size then addNodes (g.addState n.word) rest else .error (.gap n.id g.size)

/-- Adds the edges, each of which must stay within the graph. -/
def addEdges (g : IndexedGraph) : List Edge → Except InvalidGraph IndexedGraph
  | [] => .ok g
  | e :: rest =>
    if e.source < g.size && e.target < g.size then
      let g := g.addEdge e.source e.target e.input e.output
      addEdges (g.modifyEdge e.source e.target fun old =>
        { old with weight := e.weight, count := e.count }) rest
    else .error (.missingState e.source e.target)

def ofData (d : GraphData) : Except InvalidGraph IndexedGraph := do
  let nodes := d.nodes.mergeSort fun a b => a.id ≤ b.id
  let g ← addNodes {} nodes
  match nodes.filter NodeData.isStart, nodes.filter NodeData.isFinal with
  | [s], [f] => addEdges ((g.setStart s.id).setFinal f.id) d.edges
  | starts, finals => .error (.ends starts.length finals.length)

def toJson (g : IndexedGraph) : Json := g.toData.toJson

/-- Reads an indexed graph from JSON text, in the way in which `Graph.parse` reads a graph. -/
def parse (s : String) : Except GraphTextError IndexedGraph :=
  match Json.readFirst? s with
  | none => .error .malformed
  | some (v, rest) =>
    match GraphData.ofJson? v with
    | none => .error .malformed
    | some data =>
      match ofData data with
      | .error e => .error (.invalid e)
      | .ok g => if (Json.skipSpaces rest).isEmpty then .ok g else .error .malformed

end IndexedGraph

end Utterance
