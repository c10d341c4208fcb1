import Utterance.Text.Blank

/-!
# Paths

A path is a text; slashes separate the names of directories and, last, of a file.
-/

namespace Utterance.Path

/-- The order of lists of names: by the first name that differs, and a list stands before what goes on from
it. -/
def precedes : List String → List String → Bool
  | [], _ => true
  | _ :: _, [] => false
  | a :: l, b :: m => if a == b then precedes l m else decide (a < b)

/-- The path of `name` inside the directory `dir`. -/
def join (dir name : String) : String :=
  if name.startsWith "/" || dir.isEmpty then name
  else if dir.endsWith "/" then dir ++ name
  else dir ++ "/" ++ name

def fileName (path : String) : List Char :=
  match Text.cutAtLast? '/' path.toList with
  | some (_, name) => name
  | none => path.toList

/-- The part of a file's name after its last point; a point at the start does not count. -/
def extension? (path : String) : Option (List Char) :=
  match Text.cutAtLast? '.' (fileName path) with
  | some (stem, ext) => if stem.isEmpty then none else some ext
  | none => none

end Utterance.Path
