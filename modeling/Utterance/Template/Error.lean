/-!
# Errors in templates

A `Reason` says what is wrong with a template and a `Fault` where: positions count characters from zero.
A `SyntaxError` is a fault together with the whole text and with the place the text came from.
-/

namespace Utterance

/-- Where a template was read: the file and line for messages, and the intent whose grammar its references
to rules mean when they name none. -/
structure Origin where
  file : String
  line : Nat
  intent : Option String := none
deriving DecidableEq, Repr, Inhabited

namespace Template

inductive Reason where
  /-- A bracket that `close` should end is still open at the end of the text. -/
  | unclosed (close : Char)
  /-- A closing bracket that ends nothing. -/
  | unexpected (c : Char)
  | emptyAlternative
  | emptyRule
  | ruleSuffix
  | emptyTag
  | tagSuffix
  /-- A tag with no expression before it. -/
  | tagAlone
  | emptySlot
  /-- A suffix with no word before it. -/
  | suffixAlone
  | missingParenthesis
  | emptyConverter
  | notARule
  | outsideSection
deriving DecidableEq, Repr, Inhabited

def Reason.message : Reason → String
  | unclosed close => "Failed to find ending '" ++ close.toString ++ "'"
  | unexpected c => "Unexpected '" ++ c.toString ++ "'"
  | emptyAlternative => "Empty alternative"
  | emptyRule => "Empty rule reference"
  | ruleSuffix => "Rule references cannot carry substitutions or converters"
  | emptyTag => "Empty tag"
  | tagSuffix => "Tags cannot carry a suffix after '\x7d'"
  | tagAlone => "Expected expression preceding tag"
  | emptySlot => "Empty slot name"
  | suffixAlone => "Substitution or converter without a preceding word"
  | missingParenthesis => "Missing end parenthesis"
  | emptyConverter => "Empty converter name"
  | notARule => "No rule was found"
  | outsideSection => "Line appears before the first [section]"

structure Fault where
  reason : Reason
  pos : Nat
deriving DecidableEq, Repr, Inhabited

end Template

/-- A malformed template.  The column counts characters of `text` from one. -/
structure SyntaxError where
  reason : Template.Reason
  text : String
  column : Nat
  file : Option String := none
  line : Option Nat := none
deriving DecidableEq, Repr, Inhabited

def SyntaxError.message (e : SyntaxError) : String :=
  e.reason.message ++ " (text='" ++ e.text ++ "', column=" ++ toString e.column ++
    (match e.file with | some f => ", file=" ++ f | none => "") ++
    (match e.line with | some n => ", line=" ++ toString n | none => "") ++ ")"

def Template.Fault.toSyntaxError (f : Fault) (text : String) (origin : Option Origin) :
    SyntaxError :=
  { reason := f.reason
    text := text
    column := f.pos + 1
    file := origin.map Origin.file
    line := origin.map Origin.line }

end Utterance
