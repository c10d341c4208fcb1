import Utterance.Graph.Basic
import Utterance.Json.Reader

/-!
# Graphs as data

A graph is stored as a list of nodes and a list of edges.  Reading it back accepts the nodes in any order,
but they must be numbered from zero without gaps, exactly one of them must be the start and one the end,
and edges must not leave the graph.
-/

namespace Utterance

structure NodeData where
  id : Nat
  isStart : Bool := false
  isFinal : Bool := false
  word : Option String := none
deriving BEq, Repr, Inhabited

structure GraphData where
  nodes : List NodeData
  edges : List Edge
deriving BEq, Repr, Inhabited

inductive InvalidGraph where
  | gap (found position : Nat)
  | ends (starts finals : Nat)
  | missingState (source target : Nat)
  | noStart
deriving DecidableEq, Repr, Inhabited

def InvalidGraph.message (e : InvalidGraph) : String :=
  "invalid graph: " ++ match e with
    | gap found position =>
      "state ids must be dense from 0, found " ++ toString found ++ " at position " ++
        toString position
    | ends starts finals =>
      "expected one start and one final state, found " ++ toString starts ++ " and " ++
        toString finals
    | missingState source target =>
      "edge " ++ toString source ++ " -> " ++ toString target ++ " references a missing state"
    | noStart => "graph has no start state"

namespace GraphData

/-- Adds a node for each element, which must be numbered on from the size of the graph. -/
def addNodes (g : Graph) : List NodeData → Except InvalidGraph Graph
  | [] => .ok g
  | n :: rest =>
    if n.id == g.size then addNodes (g.addState n.word) rest else .error (.gap n.id g.size)

/-- Adds the edges, each of which must stay within the graph. -/
def addEdges (g : Graph) : List Edge → Except InvalidGraph Graph
  | [] => .ok g
  | e :: rest =>
    if e.source < g.size && e.target < g.size then
      let g := g.addEdge e.source e.target e.input e.output
      addEdges (g.modifyEdge e.source e.target fun old =>
        { old with weight := e.weight, count := e.count }) rest
    else .error (.missingState e.source e.target)

end GraphData

namespace Graph

def nodeData (g : Graph) (id : Nat) : NodeData :=
  ⟨id, g.start == some id, g.isFinal id, g.word? id⟩

def toData (g : Graph) : GraphData :=
  ⟨(List.range g.size).map g.nodeData, g.edges.toList⟩

def ofData (d : GraphData) : Except InvalidGraph Graph := do
  let nodes := d.nodes.mergeSort fun a b => a.id ≤ b.id
  let g ← GraphData.addNodes {} nodes
  match nodes.filter NodeData.isStart, nodes.filter NodeData.isFinal with
  | [s], [f] => GraphData.addEdges ((g.setStart s.id).setFinal f.id) d.edges
  | starts, finals => .error (.ends starts.length finals.length)

end Graph

/-! ## As JSON -/

/-- A member that is left out when there is no value. -/
def Json.optionalMember {α : Type} (key : String) (f : α → Json) :
    Option α → List (String × Json)
  | some a => [(key, f a)]
  | none => []

/-- A member that is left out when it is false. -/
def Json.flag (key : String) (b : Bool) : List (String × Json) :=
  if b then [(key, .bool true)] else []

def NodeData.toJson (n : NodeData) : Json :=
  .object <| [("id", .int n.id)] ++ Json.flag "start" n.isStart ++ Json.flag "final" n.isFinal ++
    Json.optionalMember "word" Json.text n.word

def Edge.toJson (e : Edge) : Json :=
  .object <| [("source", .int e.source), ("target", .int e.target), ("ilabel", .text e.input),
      ("olabel", .text e.output)] ++ Json.optionalMember "weight" Json.float e.weight ++
    Json.optionalMember "sentence_count" (fun n : Nat => Json.int n) e.count

def GraphData.toJson (d : GraphData) : Json :=
  .object [("nodes", .array (d.nodes.map NodeData.toJson)),
    ("edges", .array (d.edges.map Edge.toJson))]

def Graph.toJson (g : Graph) : Json := g.toData.toJson

def NodeData.ofJson? (v : Json) : Option NodeData := do
  match ← v.fields? ["id", "start", "final", "word"] with
  | [id, start, final, word] =>
    some ⟨← (← id).asNat?, ← Json.orDefault false Json.asBool? start,
      ← Json.orDefault false Json.asBool? final, ← Json.optional Json.asText? word⟩
  | _ => none

def Edge.ofJson? (v : Json) : Option Edge := do
  match ← v.fields? ["source", "target", "ilabel", "olabel", "weight", "sentence_count"] with
  | [source, target, input, output, weight, count] =>
    some ⟨← (← source).asNat?, ← (← target).asNat?, ← Json.orDefault "" Json.asText? input,
      ← Json.orDefault "" Json.asText? output, ← Json.optional Json.asFloat? weight,
      ← Json.optional Json.asNat? count⟩
  | _ => none

def GraphData.ofJson? (v : Json) : Option GraphData := do
  match ← v.fields? ["nodes", "edges"] with
  | [nodes, edges] =>
    some ⟨← (← (← nodes).asArray?).mapM NodeData.ofJson?,
      ← (← (← edges).asArray?).mapM Edge.ofJson?⟩
  | _ => none

/-- Why a text is no graph: it is not the JSON text of nodes and edges, or these form no graph. -/
inductive GraphTextError where
  | malformed
  | invalid (e : InvalidGraph)
deriving DecidableEq, Repr, Inhabited

def GraphTextError.message : GraphTextError → String
  | malformed => "JSON error"
  | invalid e => "JSON error: " ++ e.message

/-- Reads a graph from JSON text.  Whether the nodes and edges form a graph is asked before what follows
them is looked at. -/
def Graph.parse (s : String) : Except GraphTextError Graph :=
  match Json.readFirst? s with
  | none => .error .malformed
  | some (v, rest) =>
    match GraphData.ofJson? v with
    | none => .error .malformed
    | some data =>
      match Graph.ofData data with
      | .error e => .error (.invalid e)
      | .ok g => if (Json.skipSpaces rest).isEmpty then .ok g else .error .malformed

end Utterance
