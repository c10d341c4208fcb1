import Utterance.Compile.Unfold
import Utterance.Decimal.Nearest

/-!
# Counting sentences

How many sentences a tree stands for: the counts of a group's items multiply, those of an alternative's add
up, and so do those of a rule's bodies and a slot's values.  A count stops at the largest number of one
hundred and twenty-eight bits.

An intent's weight is inverse to its count.  While the least common multiple of all counts is small enough,
the weights are first found as whole numbers and then divided by their sum.
-/

namespace Utterance

namespace Count

def limit : Nat := Nat.pow 2 128 - 1

def add (a b : Nat) : Nat := min (a + b) limit

def mul (a b : Nat) : Nat := min (a * b) limit

/-- The product, unless it takes more than one hundred and twenty-eight bits. -/
def mul? (a b : Nat) : Option Nat := if limit < a * b then none else some (a * b)

/-- The greatest common divisor, by Euclid's algorithm. -/
def commonDivisor (a b : Nat) : Nat :=
  if b = 0 then a else commonDivisor b (a % b)
termination_by b
decreasing_by exact Nat.mod_lt a (by omega)

end Count

mutual

/-- The number of sentences; a slot counts once if `excludeSlots` says so. -/
def Tree.count (excludeSlots : Bool) : Tree → Except ReferenceError Nat
  | .word _ _ _ => .ok 1
  | .seq .group items _ _ => productOf excludeSlots items
  | .seq .alternative items _ _ => sumOf excludeSlots items
  | .rule _ bodies _ => sumOf excludeSlots bodies
  | .slot _ values _ _ => if excludeSlots then .ok 1 else sumOf excludeSlots values
  | .broken e => .error e

def productOf (excludeSlots : Bool) : List Tree → Except ReferenceError Nat
  | [] => .ok 1
  | t :: ts => do
    let n ← Tree.count excludeSlots t
    let rest ← productOf excludeSlots ts
    pure (Count.mul n rest)

def sumOf (excludeSlots : Bool) : List Tree → Except ReferenceError Nat
  | [] => .ok 0
  | t :: ts => do
    let n ← Tree.count excludeSlots t
    let rest ← sumOf excludeSlots ts
    pure (Count.add n rest)

end

/-- The sentences of one intent, at least one. -/
def intentCount (t : Table) (excludeSlots : Bool) (intent : String) (sentences : List Sentence) :
    Except ReferenceError Nat := do
  let n ← sumOf excludeSlots (sentences.map (Sentence.unfold t intent))
  pure (max n 1)

def intentCounts (l : IntentSentences) (t : Table) (excludeSlots : Bool) :
    Except ReferenceError (List (String × Nat)) :=
  l.mapM fun (intent, sentences) => do
    let n ← intentCount t excludeSlots intent sentences
    pure (intent, n)

/-- The least common multiple of `n` and one more count, unless it takes more than one hundred and
twenty-eight bits.  The division comes first, so that the product is no larger than it has to be. -/
def lcmStep? (n c : Nat) : Option Nat := Count.mul? (n / Count.commonDivisor n c) c

/-- The least common multiple of all counts, if it is small enough. -/
def commonMultiple? (counts : List Nat) : Option Nat := counts.foldlM lcmStep? 1

/-- Weights inverse to the counts, not yet divided by their sum. -/
def rawWeights (counts : List Nat) : List Float :=
  match commonMultiple? counts with
  | some n => counts.map fun c => Decimal.ofNat (n / c)
  | none => counts.map fun c => 1 / Decimal.ofNat c

/-- Weights inverse to the counts that add up to one. -/
def intentWeights (counts : List Nat) : List Float :=
  let raw := rawWeights (counts.map (max 1))
  let sum := raw.foldl (· + ·) 0
  if sum > 0 then raw.map (· / sum) else raw

end Utterance
