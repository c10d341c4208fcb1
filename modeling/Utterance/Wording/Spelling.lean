/-!
# Numbers in English words

`spell` writes a whole number the way it is spoken: groups of three digits, each with the name of its
scale, and "and" between hundreds and what follows them.
-/

namespace Utterance.English

def ones : List String :=
  ["zero", "one", "two", "three", "four", "five", "six", "seven", "eight", "nine", "ten", "eleven",
    "twelve", "thirteen", "fourteen", "fifteen", "sixteen", "seventeen", "eighteen", "nineteen"]

def tens : List String :=
  ["", "", "twenty", "thirty", "forty", "fifty", "sixty", "seventy", "eighty", "ninety"]

def scales : List String :=
  ["", "thousand", "million", "billion", "trillion", "quadrillion", "quintillion"]

def belowHundred (n : Nat) : List String :=
  if n < 20 then [ones.getD n ""]
  else tens.getD (n / 10) "" :: if 0 < n % 10 then [ones.getD (n % 10) ""] else []

def belowThousand (n : Nat) : List String :=
  if 100 ≤ n then
    ones.getD (n / 100) "" :: "hundred" ::
      if 0 < n % 100 then "and" :: belowHundred (n % 100) else []
  else belowHundred n

/-- The groups of three digits of a number, the lowest first; none for zero. -/
def groups (n : Nat) : List Nat :=
  if h : n = 0 then [] else n % 1000 :: groups (n / 1000)
termination_by n
decreasing_by exact Nat.div_lt_self (Nat.pos_of_ne_zero h) (by decide)

/-- A group of digits with the name of its scale; nothing for an empty group. -/
def spellGroup (scale n : Nat) : List String :=
  if n == 0 then []
  else belowThousand n ++ if scale == 0 then [] else [scales.getD scale ""]

/-- The groups from `scale` on, the highest first. -/
def spellGroups (scale : Nat) : List Nat → List String
  | [] => []
  | n :: rest => spellGroups (scale + 1) rest ++ spellGroup scale n

/-- The words for a whole number of sixty-four bits. -/
def spell (n : Int) : List String :=
  (if n < 0 then ["minus"] else []) ++
    if n == 0 then [ones.getD 0 ""] else spellGroups 0 (groups n.natAbs)

end Utterance.English
