import Utterance.Graph.Data
import Utterance.Text.Quoted

/-!
# Graphs as transducer text

A graph, or the part of it that belongs to one intent, is written as one line for each edge,
`from to input output weight`, followed by the number of the final state on a line of its own.  States are
numbered anew in the order in which a breadth-first walk along the edges first meets them.  Labels are
symbols, numbered in two tables in the order of their first use; number zero stands for the empty label.
-/

namespace Utterance

/-- Symbols in the order of their numbers. -/
structure SymbolTable where
  symbols : Array String
deriving BEq, Repr, Inhabited

namespace SymbolTable

def new (eps : String) : SymbolTable := ⟨#[eps]⟩

def intern (t : SymbolTable) (symbol : String) : SymbolTable :=
  if t.symbols.contains symbol then t else ⟨t.symbols.push symbol⟩

def id? (t : SymbolTable) (symbol : String) : Option Nat := t.symbols.idxOf? symbol

def size (t : SymbolTable) : Nat := t.symbols.size

def toText (t : SymbolTable) : String :=
  String.join ((t.symbols.toList.zipIdx).map fun (symbol, id) =>
    symbol ++ " " ++ toString id ++ "\n")

end SymbolTable

structure FstOptions where
  /-- The symbol of the empty label. -/
  eps : String := "<eps>"
  /-- The weight of edges that carry none. -/
  defaultWeight : Float := 0
  /-- Edges show the weight that they carry. -/
  includeWeights : Bool := true
  /-- Edges into other intents are left out. -/
  accepts : String → Bool := fun _ => true

inductive FstError where
  | invalid (e : InvalidGraph)
  /-- A label with blanks cannot be a symbol. -/
  | blankLabel (label : String)
deriving DecidableEq, Repr, Inhabited

def FstError.message : FstError → String
  | invalid e => e.message
  | blankLabel label => "invalid label: whitespace in FST label " ++ label.quoted

/-- A line of the text: an edge between two of the new numbers. -/
structure Arc where
  source : Nat
  target : Nat
  input : String
  output : String
  weight : Float
deriving Repr, Inhabited

def Arc.toText (a : Arc) : String :=
  toString a.source ++ " " ++ toString a.target ++ " " ++ a.input ++ " " ++ a.output ++ " " ++
    Decimal.plainText a.weight ++ "\n"

/-- What the walk has found: the states met, each at the place of its new number, the lines, newest first,
and the symbols. -/
structure FstWalk where
  met : Array Nat
  arcs : List Arc := []
  inputs : SymbolTable
  outputs : SymbolTable
deriving Inhabited

namespace FstWalk

/-- The symbol of a label. -/
def symbol (o : FstOptions) (label : String) : Except FstError String :=
  if label.isEmpty then .ok o.eps
  else if label.hasBlank then .error (.blankLabel label)
  else .ok label

/-- Adds the line of an edge that leaves the state with the new number `source`. -/
def addEdge (o : FstOptions) (source : Nat) (w : FstWalk) (e : Edge) : Except FstError FstWalk := do
  let (target, met) := match w.met.idxOf? e.target with
    | some n => (n, w.met)
    | none => (w.met.size, w.met.push e.target)
  let input ← symbol o e.input
  let output ← symbol o e.output
  let weight := if o.includeWeights then e.weight.getD o.defaultWeight else o.defaultWeight
  pure
    { met
      arcs := ⟨source, target, input, output, weight⟩ :: w.arcs
      inputs := w.inputs.intern input
      outputs := w.outputs.intern output }

/-- The edges out of a state that the walk follows. -/
def edges (g : Graph) (follows : Edge → Bool) (s : Nat) : List Edge := (g.edgesFrom s).filter follows

/-- Visits the states met from the new number `n` on, at most as many as the first argument says. -/
def run (g : Graph) (o : FstOptions) (follows : Edge → Bool) :
    Nat → Nat → FstWalk → Except FstError FstWalk
  | 0, _, w => .ok w
  | steps + 1, n, w =>
    match w.met[n]? with
    | none => .ok w
    | some s => do
      let w ← (edges g follows s).foldlM (addEdge o n) w
      run g o follows steps (n + 1) w

/-- The walk from `root`, with the symbols that are known already. -/
def ofRoot (g : Graph) (o : FstOptions) (follows : Edge → Bool) (root : Nat)
    (inputs outputs : SymbolTable) : Except FstError FstWalk :=
  run g o follows (g.size + 1) 0 { met := #[root], inputs, outputs }

/-- The new number of the final state, if the walk has met it. -/
def final? (g : Graph) (w : FstWalk) : Option Nat := g.final.bind fun s => w.met.idxOf? s

def toText (g : Graph) (w : FstWalk) : String :=
  String.join (w.arcs.reverse.map Arc.toText) ++
    match w.final? g with
    | some n => toString n ++ "\n"
    | none => ""

end FstWalk

/-- A graph as text, with its symbols. -/
structure Fst where
  text : String
  inputs : SymbolTable
  outputs : SymbolTable

/-- The edge does not enter an intent that is left out. -/
def FstOptions.follows (o : FstOptions) (e : Edge) : Bool :=
  match Label.intent? e.output with
  | some name => o.accepts name
  | none => true

/-- The whole graph, from its start state on. -/
def Graph.toFst (g : Graph) (o : FstOptions := {}) : Except FstError Fst := do
  let some start := g.start | .error (.invalid .noStart)
  let w ← FstWalk.ofRoot g o o.follows start (.new o.eps) (.new o.eps)
  pure ⟨w.toText g, w.inputs, w.outputs⟩

/-- The texts of several intents, by name, with the symbols of all of them. -/
structure IntentFsts where
  texts : List (String × String)
  inputs : SymbolTable
  outputs : SymbolTable

def insertText (name text : String) : List (String × String) → List (String × String)
  | [] => [(name, text)]
  | (k, old) :: rest =>
    if name < k then (name, text) :: (k, old) :: rest
    else if name == k then (k, text) :: rest
    else (k, old) :: insertText name text rest

/-- Adds the text of the intent whose edge is given. -/
def IntentFsts.add (g : Graph) (o : FstOptions) (f : IntentFsts) (intent : String × Edge) :
    Except FstError IntentFsts := do
  let w ← FstWalk.ofRoot g o (fun _ => true) intent.2.target f.inputs f.outputs
  pure ⟨insertText intent.1 (w.toText g) f.texts, w.inputs, w.outputs⟩

/-- Each intent on its own, from the state at which its sentences begin. -/
def Graph.toIntentFsts (g : Graph) (o : FstOptions := {}) : Except FstError IntentFsts :=
  (g.intentEdges.filter fun i => o.accepts i.1).foldlM (IntentFsts.add g o)
    ⟨[], .new o.eps, .new o.eps⟩

end Utterance
