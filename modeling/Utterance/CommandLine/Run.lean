import Utterance.CommandLine.Help
import Utterance.Corpus.Load
import Utterance.Graph.Fst
import Utterance.Graph.Indexed
import Utterance.Settings

/-!
# Running commands

Every command needs nothing but files, the lines of the input and the present moment; it prints some text,
and may fail with a message.  What was printed and written before a failure stays.
-/

namespace Utterance.CommandLine

structure Outcome where
  /-- Zero if all went well, one after a failure, and two if the arguments were wrong. -/
  code : Nat
  output : String := ""
  error : String := ""
deriving DecidableEq, Repr, Inhabited

def Outcome.done (output : String) : Outcome := { code := 0, output }

def Outcome.failed (message : String) (output : String := "") : Outcome :=
  { code := 1, output, error := "Error: " ++ message ++ "\n" }

def Outcome.misused : Outcome := { code := 2, error := "error: wrong arguments; try --help\n" }

/-- What a run finds around it besides files. -/
structure Surroundings (m : Type → Type) where
  /-- The lines of the input; none for one that is no text. -/
  lines : m (List (Option String))
  now : m DateTime

section

variable {m : Type → Type} [Monad m] [FileAccess m]

/-- A command that prints text at its end, or fails with a message. -/
abbrev Job (m : Type → Type) := ExceptT String m

def readText (path : String) (message : String) : Job m String := do
  match ← (FileAccess.readText? path : m _) with
  | some text => pure text
  | none => throw message

def writeText (path text message : String) : Job m Unit := do
  if ← (FileAccess.writeText path text : m _) then pure () else throw message

def loadGraph (path : String) : Job m Graph := do
  let message := "loading graph " ++ path
  let text ← readText path message
  match IndexedGraph.parse text with
  | .ok g => pure g.graph
  | .error _ => throw message

/-- Reads a slot's name and the file with its values, which are the lines of it that are neither blank nor
comments. -/
def readSlot (argument : String) : Job m (String × List String) := do
  match Text.cutAt? '=' argument.toList with
  | none => throw ("expected NAME=FILE, got " ++ argument.quoted)
  | some (name, file) =>
    let file := String.ofList file
    let text ← readText file ("reading slot values from " ++ file)
    let values := (text.textLines.map String.trimBlanks).filter fun l =>
      !l.isEmpty && !l.startsWith "#"
    pure ((String.ofList name).trimBlanks, values)

def readTrainConfig (path : Option String) : Job m TrainConfig := do
  match path with
  | none => pure {}
  | some path =>
    let text ← readText path ("reading " ++ path)
    match TrainConfig.parse? text with
    | some c => pure c
    | none => throw ("parsing " ++ path)

def compile (grammars : List String) (out trainConfig : Option String) (slots intents : List String)
    (skipMissing : Bool) : Job m String := do
  let options : LoadOptions :=
    { accepts := fun name => intents.isEmpty || intents.contains name, skipMissing }
  let corpus ← match ← (Corpus.load grammars options : m _) with
    | .ok c => pure c
    | .error _ => throw "loading grammars"
  let config ← readTrainConfig trainConfig
  let trainer ← slots.foldlM (fun t argument => do
    let (name, values) ← readSlot argument
    pure (t.withSlotValues name values)) (Trainer.new config)
  match trainer.train corpus with
  | .error e => throw e.message
  | .ok g =>
    let text := g.toJson.render
    match out with
    | none => pure (text ++ "\n")
    | some path =>
      writeText path text ("I/O error on " ++ path)
      pure ""

/-- Writes the symbol tables of a graph. -/
def writeSymbols (dir : String) (inputs outputs : SymbolTable) : Job m Unit := do
  let put (name : String) (t : SymbolTable) : Job m Unit :=
    let path := Path.join dir name
    writeText path t.toText ("I/O error on " ++ path)
  put "input.syms" inputs
  put "output.syms" outputs

def exportFst (graph dir : String) (perIntent weights : Bool) : Job m String := do
  let g ← loadGraph graph
  unless ← (FileAccess.createDirectory dir : m _) do throw ("creating " ++ dir)
  let options : FstOptions := { includeWeights := weights }
  if perIntent then
    match g.toIntentFsts options with
    | .error e => throw e.message
    | .ok f =>
      for (intent, text) in f.texts do
        let path := Path.join dir (intent ++ ".fst.txt")
        writeText path text ("writing " ++ path)
      writeSymbols dir f.inputs f.outputs
      pure ("wrote " ++ toString f.texts.length ++ " intent FSTs to " ++ dir ++ "\n")
  else
    match g.toFst options with
    | .error e => throw e.message
    | .ok f =>
      let path := Path.join dir "intent.fst.txt"
      writeText path f.text ("I/O error on " ++ path)
      writeSymbols dir f.inputs f.outputs
      pure ("wrote " ++ path ++ " (" ++ toString f.inputs.size ++ " input, " ++
        toString f.outputs.size ++ " output symbols)\n")

/-- What is printed for a text that is recognized. -/
def recognizeLine (g : Graph) (o : RecognizeOptions) (cs : Converters) (pretty : Bool)
    (text : String) : Except String String := do
  let l ← (g.recognizeText o cs text).mapError InterpretError.message
  match Recognition.arrayJson? l with
  | none => .error "a value has no data"
  | some v => pure ((if pretty then v.pretty else v.render) ++ "\n")

/-- Recognizes one line after the other, up to the first failure.  Blank lines are left out. -/
def recognizeLines (g : Graph) (o : RecognizeOptions) (cs : Converters) (pretty : Bool)
    (output : String) : List (Option String) → Outcome
  | [] => .done output
  | none :: _ => .failed "reading stdin" output
  | some line :: rest =>
    if line.trimBlanks.isEmpty then recognizeLines g o cs pretty output rest
    else
      match recognizeLine g o cs pretty line with
      | .ok s => recognizeLines g o cs pretty (output ++ s) rest
      | .error message => .failed message output

def readRecognizerConfig (path : Option String) : Job m RecognizerConfig := do
  match path with
  | none => pure {}
  | some path =>
    let text ← readText path ("config error: reading " ++ path)
    match RecognizerConfig.parse? text with
    | some c => pure c
    | none => throw ("config error: parsing " ++ path)

def recognize (s : Surroundings m) (graph : String) (config : Option String) (strict : Bool)
    (stopWords : List String) (pretty : Bool) (text : List String) : Job m Outcome := do
  let g ← loadGraph graph
  let c ← readRecognizerConfig config
  let c : RecognizerConfig :=
    { c with tolerant := c.tolerant && !strict, stopWords := c.stopWords ++ stopWords }
  let cs := Converters.builtin (English.extractor (← s.now))
  let lines ← if text.isEmpty then s.lines else pure []
  if text.isEmpty then pure (recognizeLines g c.options cs pretty "" lines)
  else
    match recognizeLine g c.options cs pretty (spaced text) with
    | .ok s => pure (.done s)
    | .error message => pure (.failed message)

def sample (s : Surroundings m) (graph : String) (limit : Option Nat) : Job m String := do
  if limit == some 0 then throw "--limit must be at least 1"
  let g ← loadGraph graph
  let cs := Converters.builtin (English.extractor (← s.now))
  match g.samples cs limit with
  | .error e => throw e.message
  | .ok l =>
    match l.mapM fun (intent, rs) => (Recognition.arrayJson? rs).map fun v => (intent, v) with
    | none => throw "a value has no data"
    | some members => pure ((Json.object members).pretty ++ "\n")

/-- The outcome of a job that prints at its end. -/
def outcomeOf (j : Job m String) : m Outcome := do
  match ← j.run with
  | .ok output => pure (.done output)
  | .error message => pure (.failed message)

def Command.run (s : Surroundings m) : Command → m Outcome
  | compile grammars out trainConfig slots intents skipMissing =>
    outcomeOf (CommandLine.compile grammars out trainConfig slots intents skipMissing)
  | fst graph dir perIntent weights => outcomeOf (exportFst graph dir perIntent weights)
  | recognize graph config strict stopWords pretty text => do
    match ← (CommandLine.recognize s graph config strict stopWords pretty text).run with
    | .ok outcome => pure outcome
    | .error message => pure (.failed message)
  | sample graph limit => outcomeOf (CommandLine.sample s graph limit)

def run (s : Surroundings m) (arguments : List String) : m Outcome :=
  match Request.read? arguments with
  | none => pure .misused
  | some (.help about) => pure (.done (helpText about))
  | some .version => pure (.done versionText)
  | some (.run c) => c.run s

end

end Utterance.CommandLine
