import Utterance.Template.Parser

/-!
# Reading rules

A rule is written `<name> = body;`.  The word `public` may stand before it, the semicolon may be left out,
and no other semicolon may stand in it.
-/

namespace Utterance

structure RuleText where
  isPublic : Bool
  name : List Char
  body : List Char

/-- Cuts the body of a rule out of what follows the equals sign. -/
def RuleText.body? (cs : List Char) : Option (List Char) :=
  let body := if cs.getLast? == some ';' then cs.dropLast else cs
  if body.isEmpty || body.contains ';' then none else some (Text.trim body)

/-- Cuts the text of a rule, which has no blanks around it, into its parts. -/
def RuleText.cut? (cs : List Char) : Option RuleText := do
  let (isPublic, cs) := match Text.dropStart? "public".toList cs with
    | some rest => (true, rest)
    | none => (false, cs)
  match cs.dropWhile Text.isBlank with
  | '<' :: rest =>
    let (name, rest) ← Text.cutAt? '>' rest
    if name.isEmpty then none
    else
      match rest.dropWhile Text.isBlank with
      | '=' :: rest => (RuleText.body? rest).map fun body => ⟨isPublic, Text.trim name, body⟩
      | _ => none
  | _ => none

/-- Reads a rule.  An error inside the body is an error of the body's text. -/
def Rule.parse (text : String) (origin : Option Origin := none) : Except SyntaxError Rule :=
  match RuleText.cut? (Text.trim text.toList) with
  | none => .error ((⟨.notARule, 0⟩ : Template.Fault).toSyntaxError text origin)
  | some parts => do
    let body ← Sentence.parse (String.ofList parts.body) origin
    pure ⟨String.ofList parts.name, body, parts.isPublic, text⟩

end Utterance
