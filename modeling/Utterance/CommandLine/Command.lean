import Utterance.CommandLine.Arguments
import Utterance.Decimal.Read

/-!
# Commands

The program has four commands.  `Request.read?` reads a command with its arguments, which may also ask for
help or for the program's version.
-/

namespace Utterance.CommandLine

inductive Command where
  /-- Compiles grammars into a graph, which is written to a file or printed. -/
  | compile (grammars : List String) (out trainConfig : Option String) (slots intents : List String)
      (skipMissing : Bool)
  /-- Writes a graph as text, with its symbols. -/
  | fst (graph outDir : String) (perIntent weights : Bool)
  /-- Recognizes the text given, or every line of the input. -/
  | recognize (graph : String) (config : Option String) (strict : Bool) (stopWords : List String)
      (pretty : Bool) (text : List String)
  /-- Prints what a graph accepts. -/
  | sample (graph : String) (limit : Option Nat)
deriving Repr, Inhabited

inductive CommandName where
  | compile
  | fst
  | recognize
  | sample
deriving DecidableEq, Repr, Inhabited

def CommandName.read? : String → Option CommandName
  | "compile" => some compile
  | "fst" => some fst
  | "recognize" => some recognize
  | "sample" => some sample
  | _ => none

inductive Request where
  | run (c : Command)
  /-- Help on a command, or on all of them. -/
  | help (about : Option CommandName)
  | version
deriving Repr, Inhabited

/-- Reads a natural number of sixty-four bits, with or without a plus sign. -/
def readCount? (s : String) : Option Nat :=
  let cs := s.toList
  let digits := if cs.head? == some '+' then cs.tail else cs
  if digits.isEmpty || !digits.all Char.isDigit then none
  else
    let n := Decimal.ofDigits digits
    if n ≤ Decimal.maxNat64 then some n else none

def isPath (s : String) : Bool := !s.isEmpty

def debugSpec : OptionSpec := { name := "debug", kind := .flag }

def graphSpec : OptionSpec := { name := "graph", kind := .once, accepts := isPath }

def CommandName.spec : CommandName → ArgumentSpec
  | compile =>
    { options :=
        [{ name := "out", kind := .once, letter := some 'o', accepts := isPath },
          { name := "train-config", kind := .once, accepts := isPath },
          { name := "slot", kind := .many }, { name := "intent", kind := .many },
          { name := "skip-missing", kind := .flag }, debugSpec]
      acceptsWord := some isPath }
  | fst =>
    { options :=
        [graphSpec, { name := "out-dir", kind := .once, accepts := isPath },
          { name := "per-intent", kind := .flag }, { name := "no-weights", kind := .flag },
          debugSpec] }
  | recognize =>
    { options :=
        [graphSpec, { name := "config", kind := .once, accepts := isPath },
          { name := "strict", kind := .flag }, { name := "stop-word", kind := .many },
          { name := "pretty", kind := .flag }, debugSpec]
      acceptsWord := some fun _ => true }
  | sample =>
    { options :=
        [graphSpec, { name := "limit", kind := .once, accepts := fun s => (readCount? s).isSome },
          debugSpec] }

/-- The command with the given arguments; none if something that it needs is missing. -/
def Command.ofArguments? (name : CommandName) (a : Arguments) : Option Command :=
  match name with
  | .compile =>
    if a.words.isEmpty then none
    else some (.compile a.words (a.value? "out") (a.value? "train-config") (a.values "slot")
      (a.values "intent") (a.has "skip-missing"))
  | .fst => do
    let graph ← a.value? "graph"
    some (.fst graph ((a.value? "out-dir").getD ".") (a.has "per-intent") (!a.has "no-weights"))
  | .recognize => do
    let graph ← a.value? "graph"
    some (.recognize graph (a.value? "config") (a.has "strict") (a.values "stop-word")
      (a.has "pretty") a.words)
  | .sample => do
    let graph ← a.value? "graph"
    some (.sample graph ((a.value? "limit").bind readCount?))

/-- Reads a request from the program's arguments; `debug` tells whether that flag has been given. -/
def Request.readFrom? (debug : Bool) : List String → Option Request
  | [] => none
  | argument :: rest =>
    match argument.toList with
    | '-' :: 'h' :: _ => some (.help none)
    | '-' :: 'V' :: _ => some .version
    | _ =>
      if argument == "--help" then some (.help none)
      else if argument == "--version" then some .version
      else if argument == "--debug" then if debug then none else readFrom? true rest
      else
        match CommandName.read? argument with
        | none => none
        | some name =>
          match readArguments name.spec {} rest with
          | .ok a => (Command.ofArguments? name a).map .run
          | .error .help => some (.help (some name))
          | .error .wrong => none

def Request.read? (arguments : List String) : Option Request := readFrom? false arguments

end Utterance.CommandLine
