import Utterance.Files.Access
import Utterance.Files.Path

/-!
# Trees of files

A tree of files as a value: what stands at each path, a path being the list of names that lead to it from
the root.  Directories above an entry exist without an entry of their own.
-/

namespace Utterance

inductive FileNode where
  | file (bytes : ByteArray)
  | directory
deriving Inhabited

/-- The entries of a tree, at most one for each list of names. -/
structure FileTree where
  entries : List (List String × FileNode) := []
deriving Inhabited

namespace FileTree

/-- What is found at the end of a list of names. -/
def kindAt (t : FileTree) (names : List String) : PathKind :=
  match t.entries.lookup names with
  | some (.file _) => .file
  | some .directory => .directory
  | none =>
    if names.isEmpty || t.entries.any (fun e => names.isPrefixOf e.1) then .directory else .missing

/-- Follows the parts of a path from a place in the tree.  Each step starts from a directory, and a path
cannot leave the tree. -/
def follow (t : FileTree) (here : List String) : List String → Option (List String)
  | [] => some here
  | part :: rest =>
    if t.kindAt here != .directory then none
    else if part == "" || part == "." then t.follow here rest
    else if part == ".." then if here.isEmpty then none else t.follow here.dropLast rest
    else t.follow (here ++ [part]) rest

/-- The names that lead to a path; what they lead to need not exist. -/
def resolve? (t : FileTree) (path : String) : Option (List String) :=
  if path.isEmpty || path.startsWith "/" then none else t.follow [] (path.pieces '/')

/-- Puts a node at the end of a list of names. -/
def put (t : FileTree) (names : List String) (node : FileNode) : FileTree :=
  ⟨(t.entries.filter fun e => e.1 != names) ++ [(names, node)]⟩

def bytes? (t : FileTree) (path : String) : Option ByteArray := do
  match t.entries.lookup (← t.resolve? path) with
  | some (.file bytes) => some bytes
  | _ => none

def kind (t : FileTree) (path : String) : PathKind :=
  match t.resolve? path with
  | some names => t.kindAt names
  | none => .missing

/-- The files below a directory, by the names that lead on from it, in their order. -/
def below (t : FileTree) (names : List String) : List (List String) :=
  let files := t.entries.filterMap fun (path, node) =>
    match node with
    | .file _ => if names.isPrefixOf path then some (path.drop names.length) else none
    | .directory => none
  files.mergeSort Path.precedes

/-- The tree with a file written, unless its directory is missing or it is a directory itself. -/
def write? (t : FileTree) (path : String) (bytes : ByteArray) : Option FileTree := do
  let names ← t.resolve? path
  if names.isEmpty || t.kindAt names == .directory || t.kindAt names.dropLast != .directory then none
  else some (t.put names (.file bytes))

/-- Follows the parts of a path and creates the directories that are missing. -/
def createAlong (t : FileTree) (here : List String) : List String → Option FileTree
  | [] => some t
  | part :: rest =>
    if part == "" || part == "." then t.createAlong here rest
    else if part == ".." then if here.isEmpty then none else t.createAlong here.dropLast rest
    else
      let next := here ++ [part]
      match t.kindAt next with
      | .file => none
      | .directory => t.createAlong next rest
      | .missing => (t.put next .directory).createAlong next rest

end FileTree

instance : FileAccess (StateM FileTree) where
  kind path := do pure ((← get).kind path)
  readText? path := do pure (((← get).bytes? path).bind String.fromUTF8?)
  filesBelow path := do
    let t ← get
    match t.resolve? path with
    | none => pure []
    | some names => pure ((t.below names).map fun l => Path.join path ("/".intercalate l))
  writeText path text := do
    match (← get).write? path text.toUTF8 with
    | some t => do set t; pure true
    | none => pure false
  createDirectory path := do
    match (← get).createAlong [] (path.pieces '/') with
    | some t => do set t; pure true
    | none => pure false

end Utterance
