/-!
# Lines of bytes

The input of the program is cut into lines before it is known to be text, so that a line that is no text
spoils only itself and what comes after it.
-/

namespace Utterance.CommandLine

/-- The pieces between line feeds; after the last one a piece counts only if it is not empty.  `line` is
the piece so far, backwards. -/
def splitLines (line : List UInt8) : List UInt8 → List (List UInt8 × Bool)
  | [] => if line.isEmpty then [] else [(line.reverse, false)]
  | b :: bytes =>
    if b == 10 then (line.reverse, true) :: splitLines [] bytes else splitLines (b :: line) bytes

/-- A line without the carriage return in front of its line feed. -/
def dropReturn (line : List UInt8) (fed : Bool) : List UInt8 :=
  if fed && line.getLast? == some 13 then line.dropLast else line

/-- The lines of the input; none for one that is no text. -/
def textLinesOf (bytes : ByteArray) : List (Option String) :=
  (splitLines [] bytes.toList).map fun (line, fed) =>
    String.fromUTF8? (ByteArray.mk (dropReturn line fed).toArray)

end Utterance.CommandLine
