import Utterance.Graph.Label

/-!
# Intent graphs

A directed graph whose edges hear a word and say a label; either may be empty.  States are numbered from
zero in the order in which they are added.  Between two states there is at most one edge: adding it again
changes its labels and leaves it in its place, so the edges out of a state keep the order in which they
were first added.
-/

namespace Utterance

structure Edge where
  source : Nat
  target : Nat
  /-- The word that the edge hears; empty if it hears nothing. -/
  input : String := ""
  /-- The label that the edge says. -/
  output : String := ""
  weight : Option Float := none
  count : Option Nat := none
deriving BEq, Repr, Inhabited

def Edge.isEpsilon (e : Edge) : Bool := e.input.isEmpty

/-- What a graph holds for a state: the word heard on the way into it, and the positions of the edges that
leave it. -/
structure GraphNode where
  word : Option String := none
  out : Array Nat := #[]
deriving BEq, Repr, Inhabited

structure Graph where
  nodes : Array GraphNode := #[]
  edges : Array Edge := #[]
  start : Option Nat := none
  final : Option Nat := none
deriving BEq, Repr, Inhabited

namespace Graph

/-- The number of states; also the number that the next state will have. -/
def size (g : Graph) : Nat := g.nodes.size

/-- Adds a state, the one numbered `g.size`. -/
def addState (g : Graph) (word : Option String := none) : Graph :=
  { g with nodes := g.nodes.push { word } }

def setStart (g : Graph) (s : Nat) : Graph := { g with start := some s }

def setFinal (g : Graph) (s : Nat) : Graph := { g with final := some s }

def isFinal (g : Graph) (s : Nat) : Bool := g.final == some s

def word? (g : Graph) (s : Nat) : Option String := (g.nodes[s]?).bind GraphNode.word

/-- The positions of the edges that leave a state. -/
def outOf (g : Graph) (s : Nat) : List Nat :=
  match g.nodes[s]? with
  | some node => node.out.toList
  | none => []

/-- The edges that leave a state, in the order in which they were first added. -/
def edgesFrom (g : Graph) (s : Nat) : List Edge := (g.outOf s).filterMap (g.edges[·]?)

/-- The position of the edge between two states. -/
def position? (g : Graph) (source target : Nat) : Option Nat :=
  (g.outOf source).find? fun i => (g.edges[i]?).any (·.target == target)

def edge? (g : Graph) (source target : Nat) : Option Edge :=
  (g.position? source target).bind (g.edges[·]?)

def modifyEdge (g : Graph) (source target : Nat) (f : Edge → Edge) : Graph :=
  match g.position? source target with
  | some i => { g with edges := g.edges.modify i f }
  | none => g

/-- Adds the edge between two states, or gives it new labels if it is there. -/
def addEdge (g : Graph) (source target : Nat) (input output : String) : Graph :=
  match g.position? source target with
  | some i => { g with edges := g.edges.modify i fun e => { e with input, output } }
  | none =>
    let i := g.edges.size
    { g with
      edges := g.edges.push { source, target, input, output }
      nodes := g.nodes.modify source fun node => { node with out := node.out.push i } }

/-- The edges by which the start state enters the intents, with the intents' names. -/
def intentEdges (g : Graph) : List (String × Edge) :=
  match g.start with
  | none => []
  | some s =>
    (g.edgesFrom s).filterMap fun e => (Label.intent? e.output).map fun name => (name, e)

def intentNames (g : Graph) : List String := g.intentEdges.map Prod.fst

end Graph

end Utterance
