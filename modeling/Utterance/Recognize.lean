import Utterance.Recognition.Interpret
import Utterance.Search.Exact
import Utterance.Search.Simple
import Utterance.Search.Tolerant
import Utterance.Wording.Casing

/-!
# From tokens to recognitions

`recognize` searches the graph for paths that fit the input and interprets them.  A tolerant search gives
all paths of the least cost.  An exact one gives all paths that match the whole input; if there are none, it
is tried once more without the stop words in the input, and with those in the graph optional.  A path whose
converters reject their values is dropped.
-/

namespace Utterance

structure RecognizeOptions where
  tolerant : Bool := true
  stopWords : List String := []
  search : SearchOptions := {}
  /-- How many paths an exact search finds at most. -/
  maxPaths : Option Nat := none
  /-- What a tolerant search counts; the usual costs if nothing is said. -/
  costRule : Option (CostRule Float) := none

namespace RecognizeOptions

def isStopWord (o : RecognizeOptions) (word : String) : Bool := o.stopWords.contains word

def rule (o : RecognizeOptions) : CostRule Float :=
  o.costRule.getD (usualCost o.search o.stopWords)

end RecognizeOptions

structure RecognizerConfig where
  tolerant : Bool := true
  stopWords : List String := []
  /-- Words of the graph and tokens of the input are compared in this case. -/
  casing : Casing := .keep
  /-- The only intents that are considered, if given. -/
  intents : Option (List String) := none
  maxPaths : Option Nat := none
deriving DecidableEq, Repr, Inhabited

def RecognizerConfig.options (c : RecognizerConfig) : RecognizeOptions :=
  { tolerant := c.tolerant
    stopWords := c.stopWords
    search :=
      { accepts := match c.intents with
          | none => fun _ => true
          | some l => fun name => l.contains name
        transform := c.casing.apply }
    maxPaths := c.maxPaths }

/-- The paths that match the whole input, or else what is left of it without its stop words. -/
def Graph.exactOrSparse (g : Graph) (o : RecognizeOptions) (tokens : List String) : List Path :=
  match g.exactPaths o.search tokens (fun _ => false) o.maxPaths with
  | [] =>
    if o.stopWords.isEmpty then []
    else
      let kept := tokens.filter fun t => !o.isStopWord (o.search.transform t)
      g.exactPaths o.search kept o.isStopWord o.maxPaths
  | paths => paths

/-- The paths that fit the input, with their costs if these are counted. -/
def Graph.candidates (g : Graph) (o : RecognizeOptions) (tokens : List String) :
    List (Path × Option Float) :=
  if o.tolerant then
    (g.tolerantMatches o.search o.rule tokens).best.map fun m => (m.path, some m.cost)
  else (g.exactOrSparse o tokens).map fun p => (p, none)

/-- Interprets paths in turn and drops those whose converters reject their values. -/
def Graph.interpretAll (g : Graph) (cs : Converters) :
    List (Path × Option Float) → Except InterpretError (List Recognition)
  | [] => .ok []
  | (p, cost) :: rest =>
    match g.interpret cs p cost with
    | .ok r => do
      let later ← g.interpretAll cs rest
      pure (r :: later)
    | .error (.conversion _ _) => g.interpretAll cs rest
    | .error e => .error e

def Graph.recognize (g : Graph) (o : RecognizeOptions) (cs : Converters) (tokens : List String) :
    Except InterpretError (List Recognition) :=
  g.interpretAll cs (g.candidates o tokens)

def Graph.recognizeText (g : Graph) (o : RecognizeOptions) (cs : Converters) (text : String) :
    Except InterpretError (List Recognition) :=
  g.recognize o cs text.blankWords

/-- Adds a recognition to those of its intent; the names of the intents ascend. -/
def addSample (r : Recognition) :
    List (String × List Recognition) → List (String × List Recognition)
  | [] => [(r.intent, [r])]
  | (intent, l) :: rest =>
    if r.intent < intent then (r.intent, [r]) :: (intent, l) :: rest
    else if r.intent == intent then (intent, l ++ [r]) :: rest
    else (intent, l) :: addSample r rest

/-- Interprets the simple paths of a graph and groups what they say by intent. -/
def Graph.samples (g : Graph) (cs : Converters) (limit : Option Nat := none) :
    Except InterpretError (List (String × List Recognition)) := do
  let recognitions ← (g.simplePaths limit).mapM fun p => g.interpret cs p
  pure (recognitions.foldl (fun l r => addSample r l) [])

end Utterance
