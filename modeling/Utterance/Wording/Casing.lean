import Utterance.Compile.Table
import Utterance.Text.Case

/-!
# The case of what is heard

A casing changes the texts of words, so that input of the same case matches them.  What a word says stays
as it was written: if its text changes and it has no substitution yet, the old text becomes one.
-/

namespace Utterance

inductive Casing where
  | keep
  | lower
  | upper
deriving DecidableEq, Repr, Inhabited

namespace Casing

def apply : Casing → String → String
  | keep, s => s
  | lower, s => s.lowerCase
  | upper, s => s.upperCase

def word (c : Casing) (text : String) (suffix : Suffix) (tag : Option Tag) : Expr :=
  let cased := c.apply text
  if cased == text then .word text suffix tag
  else .word cased { suffix with substitution := some (suffix.substitution.getD [text]) } tag

def expr (c : Casing) (e : Expr) : Expr := e.mapWords c.word

def sentence (c : Casing) (s : Sentence) : Sentence := s.mapWords c.word

def read? : String → Option Casing
  | "keep" => some keep
  | "lower" => some lower
  | "upper" => some upper
  | _ => none

def name : Casing → String
  | keep => "keep"
  | lower => "lower"
  | upper => "upper"

end Casing

end Utterance
