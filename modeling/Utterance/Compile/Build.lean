import Utterance.Compile.Unfold
import Utterance.Graph.Basic

/-!
# From trees to graphs

`build` adds the paths of a tree to a graph, from a given state on, and says at which state they end.  A
word becomes one edge.  The items of a group follow one another; those of an alternative all start at one
state, and their ends are joined in a new one.  What an expression's suffix and tag ask for is said on
edges that hear nothing: `labelsBefore` and `labelsAfter` list these labels, so that the marks of
converters and entities are nested as the expressions are.

A substitution is said in place of everything inside its expression.  While one is pending, words are
*hidden*: they are heard and say nothing.

Building stops at a place that could not be resolved, and the graph built so far is kept.
-/

namespace Utterance

/-- The result of building: a value with the graph, or the graph at the place where building stopped. -/
inductive Built (α : Type) where
  | done (g : Graph) (a : α)
  | stopped (g : Graph) (e : ReferenceError)
deriving Inhabited

namespace Built

variable {α β : Type}

/-- Builds on if nothing has stopped. -/
def andThen (b : Built α) (f : Graph → α → Built β) : Built β :=
  match b with
  | done g a => f g a
  | stopped g e => stopped g e

def graph : Built α → Graph
  | done g _ => g
  | stopped g _ => g

def result : Built α → Except ReferenceError α
  | done _ a => .ok a
  | stopped _ e => .error e

@[simp] theorem done_andThen (g : Graph) (a : α) (f : Graph → α → Built β) :
    (done g a).andThen f = f g a := rfl

@[simp] theorem stopped_andThen (g : Graph) (e : ReferenceError) (f : Graph → α → Built β) :
    (stopped g e : Built α).andThen f = stopped g e := rfl

end Built

namespace Graph

/-- Adds an edge to a new state that hears nothing and says `label`. -/
def emit (g : Graph) (s : Nat) (label : String) : Graph × Nat :=
  ((g.addState).addEdge s g.size "" (Label.pack label), g.size)

def emitAll (g : Graph) (s : Nat) : List String → Graph × Nat
  | [] => (g, s)
  | label :: rest =>
    let (g, s) := g.emit s label
    g.emitAll s rest

/-- Joins the ends of branches in a new state. -/
def join (g : Graph) (exits : List Nat) : Graph × Nat :=
  (exits.foldl (fun h s => h.addEdge s g.size "" "") g.addState, g.size)

/-- Adds the edge of a word, to a new state that records it.  A wildcard may also be heard any number of
times before. -/
def addWord (g : Graph) (s : Nat) (text label : String) : Graph × Nat :=
  let h := g.addState (some text)
  let h := if text == wildcard then h.addEdge s s wildcard wildcard else h
  (h.addEdge s g.size text label, g.size)

end Graph

def tagConverters (tag : Option Tag) : List String :=
  match tag with
  | some t => t.suffix.converters
  | none => []

def tagSubstitution (tag : Option Tag) : Option (List String) := tag.bind fun t => t.suffix.substitution

/-- What an expression says is replaced, by its own substitution or by its tag's. -/
def isReplaced (suffix : Suffix) (tag : Option Tag) : Bool :=
  suffix.substitution.isSome || (tagSubstitution tag).isSome

/-- The labels said before an expression: the entity opens, then the converters, last first. -/
def labelsBefore (suffix : Suffix) (tag : Option Tag) : List String :=
  (tag.toList.map fun t => (Control.beginEntity t.name).text) ++
    ((tagConverters tag).reverse ++ suffix.converters.reverse).map fun c =>
      (Control.beginConvert c).text

/-- The expression's own substitution, unless it stands inside another one or its tag has one, too. -/
def ownWords (hidden : Bool) (suffix : Suffix) (tag : Option Tag) : List String :=
  if hidden || (tagSubstitution tag).isSome then [] else suffix.substitution.getD []

/-- The labels said after an expression: substitutions, then the ends of the converters and the entity. -/
def labelsAfter (hidden : Bool) (suffix : Suffix) (tag : Option Tag) : List String :=
  ownWords hidden suffix tag ++ (tagSubstitution tag).getD [] ++
    ((suffix.converters ++ tagConverters tag).map fun c => (Control.endConvert c).text) ++
    tag.toList.map fun t => (Control.endEntity t.name).text

/-- Says what the suffix and tag ask for around the part that `content` builds. -/
def Built.wrap (hidden : Bool) (suffix : Suffix) (tag : Option Tag) (g : Graph) (s : Nat)
    (content : Graph → Nat → Built Nat) : Built Nat :=
  let (g, s) := g.emitAll s (labelsBefore suffix tag)
  (content g s).andThen fun g s =>
    let (g, s) := g.emitAll s (labelsAfter hidden suffix tag)
    .done g s

/-- A word as the edge that says it, or says nothing while it is hidden. -/
def Built.word (hidden : Bool) (text : String) (g : Graph) (s : Nat) : Built Nat :=
  let (g, s) := g.addWord s text (if hidden then "" else Label.pack text)
  .done g s

/-- The common end of the branches that `content` builds. -/
def Built.joined (content : Built (List Nat)) : Built Nat :=
  content.andThen fun g exits =>
    let (g, s) := g.join exits
    .done g s

mutual

/-- Builds a tree from the state `s` on.  `expand` says whether slots are replaced by their values. -/
def build (expand hidden : Bool) (g : Graph) (s : Nat) : Tree → Built Nat
  | .word text suffix tag =>
    Built.wrap hidden suffix tag g s (Built.word (hidden || isReplaced suffix tag) text)
  | .seq kind items suffix tag =>
    Built.wrap hidden suffix tag g s fun g s =>
      match kind with
      | .group => buildInTurn expand (hidden || isReplaced suffix tag) g s items
      | .alternative => (buildEach expand (hidden || isReplaced suffix tag) g s items).joined
  | .rule key bodies tag =>
    Built.wrap hidden {} tag g s fun g s =>
      match bodies with
      | [] => .stopped g (.unresolved key)
      | body :: _ => build expand (hidden || isReplaced {} tag) g s body
  | .slot name values suffix tag =>
    Built.wrap hidden suffix tag g s fun g s =>
      let content : Built Nat :=
        if !expand then .done g s
        else if values.isEmpty then .stopped g (.unresolved (slotKey name))
        else (buildEach expand (hidden || isReplaced suffix tag) g s values).joined
      content.andThen fun g s =>
        let (g, s) := g.emit s (Control.source (slotBase name)).text
        .done g s
  | .broken e => .stopped g e

/-- Builds trees one after the other. -/
def buildInTurn (expand hidden : Bool) (g : Graph) (s : Nat) : List Tree → Built Nat
  | [] => .done g s
  | t :: ts => (build expand hidden g s t).andThen fun g s => buildInTurn expand hidden g s ts

/-- Builds every tree from the same state and lists their ends. -/
def buildEach (expand hidden : Bool) (g : Graph) (s : Nat) : List Tree → Built (List Nat)
  | [] => .done g []
  | t :: ts =>
    (build expand hidden g s t).andThen fun g exit =>
      (buildEach expand hidden g s ts).andThen fun g exits => .done g (exit :: exits)

end

end Utterance
