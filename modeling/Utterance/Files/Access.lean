/-!
# Access to files

What the program needs of a file system, as a class, so that the same program runs on the disk and on a
tree of files that is a value.
-/

namespace Utterance

inductive PathKind where
  | missing
  | file
  | directory
deriving DecidableEq, Repr, Inhabited

class FileAccess (m : Type → Type) where
  kind : String → m PathKind
  /-- The text of a file; none when it cannot be read or is no text. -/
  readText? : String → m (Option String)
  /-- The paths of all files at any depth below a directory, ordered by the names on the way. -/
  filesBelow : String → m (List String)
  /-- Writes a text to a file and says whether that worked. -/
  writeText : String → String → m Bool
  /-- Creates a directory, with those above it, and says whether it is there now. -/
  createDirectory : String → m Bool

end Utterance
