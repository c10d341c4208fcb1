import Std.Time.DateTime.Timestamp
import Utterance.CommandLine.Input
import Utterance.CommandLine.Run

/-!
# The program

The command line on a real file system.
-/

namespace Utterance

def succeeds (a : IO Unit) : IO Bool := do
  try
    a
    pure true
  catch _ => pure false

instance : FileAccess IO where
  kind path := do
    let place := (← IO.currentDir) / path
    if ← place.isDir then pure .directory
    else if ← place.pathExists then pure .file
    else pure .missing
  readText? path := do
    try
      let text ← IO.FS.readFile path
      pure (some text)
    catch _ => pure none
  filesBelow path := do
    let place := (← IO.currentDir) / path
    let entries ← place.walkDir
    let files ← entries.toList.filterM fun entry => do pure !(← entry.isDir)
    let names := files.map fun file => file.components.drop place.components.length
    let sorted := names.mergeSort Path.precedes
    pure (sorted.map fun l => Path.join path ("/".intercalate l))
  writeText path text := succeeds (IO.FS.writeFile path text)
  createDirectory path := succeeds (IO.FS.createDirAll path)

/-- Everything that is left of a stream, after the bytes read so far. -/
partial def readAll (input : IO.FS.Stream) (bytes : ByteArray) : IO ByteArray := do
  let more ← input.read 65536
  if more.isEmpty then pure bytes else readAll input (bytes ++ more)

def surroundings : CommandLine.Surroundings IO where
  lines := do
    let bytes ← readAll (← IO.getStdin) ByteArray.empty
    pure (CommandLine.textLinesOf bytes)
  now := do
    let now ← Std.Time.Timestamp.now
    pure ⟨now.toNanosecondsSinceUnixEpoch.val, 0⟩

end Utterance

def main (arguments : List String) : IO UInt32 := do
  let outcome ← Utterance.CommandLine.run Utterance.surroundings arguments
  IO.print outcome.output
  IO.eprint outcome.error
  pure outcome.code.toUInt32
