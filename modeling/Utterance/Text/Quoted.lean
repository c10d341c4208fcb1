import Utterance.Text.CharClass

/-!
# Quoted texts

Messages show a text between double quotes so that every character of it can be seen: controls by their
short names, and marks and invisible characters by their code point.
-/

namespace Utterance.Text

/-- `\u{…}` with the code point in lower case hexadecimal. -/
def escapeCodePoint (c : Char) : List Char :=
  ['\\', 'u', '\x7b'] ++ Nat.toDigits 16 c.toNat ++ ['\x7d']

def quoteChar (c : Char) : List Char :=
  if c.toNat == 0 then ['\\', '0']
  else if c == '\t' then ['\\', 't']
  else if c == '\r' then ['\\', 'r']
  else if c == '\n' then ['\\', 'n']
  else if c == '\\' || c == '"' then ['\\', c]
  else if isGraphemeExtend c || !isPrintable c then escapeCodePoint c
  else [c]

end Utterance.Text

namespace String

open Utterance

/-- The text between double quotes, with its invisible characters spelled out. -/
def quoted (s : String) : String :=
  ofList ('"' :: s.toList.flatMap Text.quoteChar ++ ['"'])

end String
