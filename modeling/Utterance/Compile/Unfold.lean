import Utterance.Compile.Table

/-!
# Unfolding references

`unfold` puts in the place of every reference what the table holds for it.  The result is a `Tree`: an
expression without references, in which a place that cannot be filled is marked as broken.  What is built
from templates afterwards is a recursion on trees.

A rule that is met again while its own body is being unfolded would never end and is an error.  Which
rules are open is remembered through slots, so a slot's value cannot hide such a circle.  A slot is
likewise not opened again inside its own values, unless a rule is entered in between.  Hence unfolding
ends: the measure is the number of rules that are not open, then the number of slots that are not, then
the size of the expression.
-/

namespace Utterance

inductive ReferenceError where
  | unresolved (key : String)
  | recursive (key : String)
deriving DecidableEq, Repr, Inhabited

def ReferenceError.message : ReferenceError → String
  | unresolved key => "unresolved reference: " ++ key
  | recursive key => "rule refers to itself: " ++ key

/-- An expression with its references unfolded.  A rule and a slot hold all expressions that the table has
for them. -/
inductive Tree where
  | word (text : String) (suffix : Suffix) (tag : Option Tag)
  | seq (kind : SequenceKind) (items : List Tree) (suffix : Suffix) (tag : Option Tag)
  | rule (key : String) (bodies : List Tree) (tag : Option Tag)
  | slot (name : String) (values : List Tree) (suffix : Suffix) (tag : Option Tag)
  | broken (e : ReferenceError)
deriving Repr, Inhabited

/-- Where an expression stands: in the sentences of an intent, perhaps inside rules and slots that are
open. -/
structure Scope where
  intent : String
  /-- The grammar of the innermost open rule. -/
  grammar : Option String := none
  rules : List String := []
  /-- The slots opened since the innermost rule was entered. -/
  slots : List String := []
deriving Repr, Inhabited

namespace Scope

/-- The grammar that a reference means: the one it names, else that of the innermost open rule, else the
intent's own. -/
def grammarOf (c : Scope) (r : RuleRef) : String :=
  match r.grammar with
  | some g => if g.isEmpty then c.grammar.getD c.intent else g
  | none => c.grammar.getD c.intent

def keyOf (c : Scope) (r : RuleRef) : String := ruleKey (c.grammarOf r) r.name

def enterRule (c : Scope) (key grammar : String) : Scope :=
  { c with grammar := some grammar, rules := key :: c.rules, slots := [] }

def enterSlot (c : Scope) (key : String) : Scope := { c with slots := key :: c.slots }

end Scope

/-- How many of the keys are not open. -/
def closedKeys (keys opened : List String) : Nat :=
  (keys.filter fun k => !opened.contains k).length

theorem closedKeys_cons_le (keys opened : List String) (key : String) :
    closedKeys keys (key :: opened) ≤ closedKeys keys opened := by
  induction keys with
  | nil => simp [closedKeys]
  | cons k rest ih =>
    simp only [closedKeys, List.filter_cons, List.contains_cons] at *
    by_cases hk : opened.contains k <;> by_cases h : k == key <;> simp_all
    omega

theorem closedKeys_cons_lt {keys opened : List String} {key : String} (hk : key ∈ keys)
    (ho : opened.contains key = false) : closedKeys keys (key :: opened) < closedKeys keys opened := by
  induction keys with
  | nil => simp at hk
  | cons k rest ih =>
    by_cases h : key = k
    · subst h
      have hle := closedKeys_cons_le rest opened key
      have hin : closedKeys (key :: rest) (key :: opened) = closedKeys rest (key :: opened) := by
        simp [closedKeys]
      have hout : closedKeys (key :: rest) opened = closedKeys rest opened + 1 := by
        simp only [closedKeys, List.filter_cons, ho, Bool.not_false, ite_true, List.length_cons]
      omega
    · have ih := ih (by simpa [h] using hk)
      have : (k == key) = false := by simpa using fun e => h e.symm
      simp only [closedKeys, List.filter_cons, List.contains_cons, this, Bool.false_or] at *
      by_cases hc : opened.contains k <;> simp_all

mutual

/-- Unfolds an expression in its scope. -/
def unfold (t : Table) (c : Scope) : Expr → Tree
  | .word text suffix tag => .word text suffix tag
  | .seq kind _ items suffix tag => .seq kind (unfoldAll t c items) suffix tag
  | .rule ref tag =>
    let key := c.keyOf ref
    match _h : t.get? key with
    | none => .rule key [.broken (.unresolved key)] tag
    | some bodies =>
      if _ho : c.rules.contains key = false then
        .rule key (unfoldAll t (c.enterRule key (c.grammarOf ref)) bodies) tag
      else .rule key [.broken (.recursive key)] tag
  | .slot _ name suffix tag =>
    let key := slotKey name
    match _h : t.get? key with
    | none => .slot name [.broken (.unresolved key)] suffix tag
    | some values =>
      if _ho : c.slots.contains key = false then
        .slot name (unfoldAll t (c.enterSlot key) values) suffix tag
      else .slot name [.broken (.recursive key)] suffix tag
termination_by e => (closedKeys t.keys c.rules, closedKeys t.keys c.slots, sizeOf e)
decreasing_by
  · apply Prod.Lex.right; apply Prod.Lex.right; simp only [Expr.seq.sizeOf_spec]; omega
  · exact Prod.Lex.left _ _ (closedKeys_cons_lt (Table.mem_keys_of_get? _h) _ho)
  · exact Prod.Lex.right _ (Prod.Lex.left _ _ (closedKeys_cons_lt (Table.mem_keys_of_get? _h) _ho))

/-- Unfolds each expression of a list in the same scope. -/
def unfoldAll (t : Table) (c : Scope) : List Expr → List Tree
  | [] => []
  | e :: es => unfold t c e :: unfoldAll t c es
termination_by l => (closedKeys t.keys c.rules, closedKeys t.keys c.slots, sizeOf l)
decreasing_by
  · apply Prod.Lex.right; apply Prod.Lex.right; simp only [List.cons.sizeOf_spec]; omega
  · apply Prod.Lex.right; apply Prod.Lex.right; simp only [List.cons.sizeOf_spec]; omega

end

def Sentence.unfold (t : Table) (intent : String) (s : Sentence) : Tree :=
  Utterance.unfold t { intent } s.toExpr

end Utterance
