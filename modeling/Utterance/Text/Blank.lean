/-!
# Blank characters, and what is cut along them

Words are separated by blanks, and most texts are read without the blanks around them.  All functions are
given on lists of characters, where they are plain recursions, and once more on strings.
-/

namespace Utterance.Text

/-- A separator of words: every character with the property `White_Space`. -/
def isBlank (c : Char) : Bool :=
  let n := c.toNat
  (9 ≤ n && n ≤ 13) || n == 32 || n == 0x85 || n == 0xA0 || n == 0x1680 ||
    (0x2000 ≤ n && n ≤ 0x200A) || n == 0x2028 || n == 0x2029 || n == 0x202F || n == 0x205F ||
    n == 0x3000

def dropEndWhile (p : Char → Bool) (cs : List Char) : List Char :=
  (cs.reverse.dropWhile p).reverse

def dropAround (p : Char → Bool) (cs : List Char) : List Char :=
  dropEndWhile p (cs.dropWhile p)

def trim (cs : List Char) : List Char := dropAround isBlank cs

/-- The maximal runs of elements outside `sep`.  `run` is the run being read, newest first. -/
def splitRuns {α : Type} (sep : α → Bool) (run : List α) : List α → List (List α)
  | [] => if run.isEmpty then [] else [run.reverse]
  | a :: as =>
    if sep a then
      if run.isEmpty then splitRuns sep [] as else run.reverse :: splitRuns sep [] as
    else splitRuns sep (a :: run) as

/-- The words of a text: its maximal runs of characters that are not blank. -/
def words (cs : List Char) : List (List Char) := splitRuns isBlank [] cs

/-- The pieces between the elements in `sep`; always at least one, possibly empty. -/
def splitAt {α : Type} (sep : α → Bool) : List α → List (List α)
  | [] => [[]]
  | a :: as =>
    if sep a then [] :: splitAt sep as
    else
      match splitAt sep as with
      | [] => [[a]]
      | piece :: rest => (a :: piece) :: rest

/-- The parts before and after the first occurrence of `sep`. -/
def cutAt? (sep : Char) (cs : List Char) : Option (List Char × List Char) :=
  match cs.dropWhile (· != sep) with
  | [] => none
  | _ :: rest => some (cs.takeWhile (· != sep), rest)

/-- The parts before and after the last occurrence of `sep`. -/
def cutAtLast? (sep : Char) (cs : List Char) : Option (List Char × List Char) :=
  (cutAt? sep cs.reverse).map fun (after, before) => (before.reverse, after.reverse)

/-- The lines of a text.  A line ends at a line feed, with or without a carriage return before it, and a
line feed at the very end opens no further line. -/
def lines (cs : List Char) : List (List Char) :=
  let pieces := splitAt (· == '\n') cs
  let ended := pieces.dropLast.map fun line =>
    if line.getLast? == some '\r' then line.dropLast else line
  match pieces.getLast? with
  | none | some [] => ended
  | some last => ended ++ [last]

/-- What follows `start` at the beginning of the text. -/
def dropStart? (start cs : List Char) : Option (List Char) :=
  if start.isPrefixOf cs then some (cs.drop start.length) else none

/-- What precedes `finish` at the end of the text. -/
def dropFinish? (finish cs : List Char) : Option (List Char) :=
  (dropStart? finish.reverse cs.reverse).map List.reverse

end Utterance.Text

namespace String

open Utterance

def trimBlanks (s : String) : String := ofList (Text.trim s.toList)

def blankWords (s : String) : List String := (Text.words s.toList).map ofList

def hasBlank (s : String) : Bool := s.toList.any Text.isBlank

def textLines (s : String) : List String := (Text.lines s.toList).map ofList

def pieces (s : String) (sep : Char) : List String := (Text.splitAt (· == sep) s.toList).map ofList

def after? (s start : String) : Option String :=
  (Text.dropStart? start.toList s.toList).map ofList

end String
