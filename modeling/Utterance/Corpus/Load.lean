import Utterance.Corpus.Ini
import Utterance.Files.Access
import Utterance.Files.Path

/-!
# Loading corpora from files

Files are read in the order given.  A directory stands for every file at any depth below it whose name ends
in `.ini`; a file that is named itself is read whatever its name.
-/

namespace Utterance

inductive LoadError where
  | malformed (e : SyntaxError)
  | missingPath (path : String)
  | unreadable (path : String)
deriving Repr, Inhabited

def LoadError.message : LoadError → String
  | malformed e => e.message
  | missingPath path => "I/O error reading " ++ path ++ ": no such file or directory"
  | unreadable path => "I/O error reading " ++ path

namespace Corpus

variable {m : Type → Type} [Monad m] [FileAccess m]

def loadFile (path : String) (options : LoadOptions) : m (Except LoadError Corpus) := do
  match ← FileAccess.readText? path with
  | none => pure (.error (.unreadable path))
  | some text => pure ((Corpus.parse text path options).mapError .malformed)

def findFiles (options : LoadOptions) : List String → m (Except LoadError (List String))
  | [] => pure (.ok [])
  | path :: rest => do
    let here ← match ← FileAccess.kind path with
      | .directory => do
        let files ← FileAccess.filesBelow path
        pure (some (files.filter fun f => Path.extension? f == some "ini".toList))
      | .file => pure (some [path])
      | .missing => pure (if options.skipMissing then some [] else none)
    match here with
    | none => pure (.error (.missingPath path))
    | some files => do
      let more ← findFiles options rest
      pure (more.map (files ++ ·))

/-- Loads the files one after the other and merges each into the corpus of those before it. -/
def loadFiles (options : LoadOptions) (corpus : Corpus) : List String → m (Except LoadError Corpus)
  | [] => pure (.ok corpus)
  | path :: rest => do
    match ← loadFile path options with
    | .error e => pure (.error e)
    | .ok more => loadFiles options (corpus.merge more) rest

def load (paths : List String) (options : LoadOptions) : m (Except LoadError Corpus) := do
  match ← findFiles options paths with
  | .error e => pure (.error e)
  | .ok files => loadFiles options {} files

end Corpus

end Utterance
