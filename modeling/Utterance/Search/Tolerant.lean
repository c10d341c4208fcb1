import Utterance.Search.Basic
import Utterance.Template.Expr

/-!
# Paths that pass over some of the input

A tolerant search skips tokens at a cost.  What an edge costs in front of some tokens is said by a
`CostRule`; the usual one looks for the next token that is the word of the edge and counts one for every
token before it, or a tenth if that is a stop word.  A path counts if it says more words than it costs, and
for every intent the cheapest paths are kept.  Costs are numbers of any kind that can be added and compared:
the program counts in floating point, and exact numbers serve as well.
-/

namespace Utterance

/-- The numbers that costs are counted in. -/
class Cost (κ : Type) where
  ofNat : Nat → κ
  /-- What a stop word or a word in place of a wildcard costs. -/
  tenth : κ
  add : κ → κ → κ
  less : κ → κ → Bool
  equal : κ → κ → Bool

instance : Cost Float where
  ofNat := Float.ofNat
  tenth := 0.1
  add := (· + ·)
  less x y := decide (x < y)
  equal := (· == ·)

/-- What taking an edge comes to. -/
structure Hearing (κ : Type) where
  cost : κ
  /-- How many tokens are used up, matched or not. -/
  consumed : Nat
  matched : List String
deriving Repr

/-- What it comes to if an edge with the given word is taken in front of the given tokens; none if it cannot
be taken. -/
abbrev CostRule (κ : Type) := String → List String → Option (Hearing κ)

section

variable {κ : Type} [Cost κ]

/-- Looks for a token that is the word; `skipped` have been passed over at the cost `cost`. -/
def scanTokens (o : SearchOptions) (stopWords : List String) (word : String) (cost : κ) (skipped : Nat) :
    List String → Option (Hearing κ)
  | [] => none
  | token :: rest =>
    if o.same word token then some ⟨cost, skipped + 1, [token]⟩
    else
      let more : κ := if stopWords.contains (o.transform token) then Cost.tenth else Cost.ofNat 1
      scanTokens o stopWords word (Cost.add cost more) (skipped + 1) rest

/-- The usual rule.  An edge without a word is free, and a wildcard takes the next token for a tenth. -/
def usualCost (o : SearchOptions) (stopWords : List String) : CostRule κ := fun word tokens =>
  if word.isEmpty then some ⟨Cost.ofNat 0, 0, []⟩
  else
    match tokens with
    | token :: _ =>
      if word == wildcard then some ⟨Cost.tenth, 1, [token]⟩
      else scanTokens o stopWords word (Cost.ofNat 0) 0 tokens
    | [] => none

end

/-- A path that counts. -/
structure TolerantMatch (κ : Type) where
  intent : String
  path : Path
  /-- Includes one for every token that was left at the end of the path. -/
  cost : κ
deriving Repr, Inhabited

/-- The cheapest paths of every intent; the names of the intents ascend. -/
abbrev TolerantMatches (κ : Type) := List (String × List (TolerantMatch κ))

section

variable {κ : Type} [Cost κ]

/-- Keeps a match among those of its intent, which all have one cost, if none of them is cheaper, and drops
those that are more expensive. -/
def keepCheapest (m : TolerantMatch κ) : List (TolerantMatch κ) → List (TolerantMatch κ)
  | [] => [m]
  | first :: rest =>
    if Cost.less first.cost m.cost then first :: rest
    else if Cost.equal m.cost first.cost then first :: rest ++ [m]
    else [m]

def TolerantMatches.add (m : TolerantMatch κ) : TolerantMatches κ → TolerantMatches κ
  | [] => [(m.intent, [m])]
  | (intent, kept) :: rest =>
    if m.intent < intent then (m.intent, [m]) :: (intent, kept) :: rest
    else if m.intent == intent then (intent, keepCheapest m kept) :: rest
    else (intent, kept) :: TolerantMatches.add m rest

def TolerantMatches.least? (ms : TolerantMatches κ) : Option κ :=
  (ms.filterMap fun (_, kept) => kept.head?.map TolerantMatch.cost).foldl (fun least cost =>
    match least with
    | none => some cost
    | some x => some (if Cost.less cost x then cost else x)) none

def TolerantMatches.best (ms : TolerantMatches κ) : List (TolerantMatch κ) :=
  match ms.least? with
  | none => []
  | some least =>
    (ms.filter fun (_, kept) => kept.head?.any fun m => Cost.equal m.cost least).flatMap Prod.snd

end

/-- Where a tolerant search has come to. -/
structure TolerantVisit (κ : Type) where
  state : Nat
  rest : List String
  /-- The steps taken, the last one first. -/
  back : Path
  /-- How many words have been said. -/
  said : Nat
  cost : κ
  intent : Option String

/-- What a tolerant search has found: the matches, and the cost above which it gives a path up. -/
structure TolerantSearch (κ : Type) where
  found : TolerantMatches κ
  ceiling : κ

namespace TolerantSearch

variable {κ : Type} [Cost κ]

/-- Records a visit if it is at the end of a path that counts. -/
def record (g : Graph) (s : TolerantSearch κ) (v : TolerantVisit κ) : TolerantSearch κ :=
  if g.isFinal v.state && Cost.less v.cost (Cost.ofNat v.said) then
    let cost := Cost.add v.cost (Cost.ofNat v.rest.length)
    { found := s.found.add ⟨v.intent.getD "", v.back.reverse, cost⟩
      ceiling := if Cost.less cost s.ceiling then cost else s.ceiling }
  else s

/-- The visit on the other side of an edge. -/
def cross? (rule : CostRule κ) (v : TolerantVisit κ) (e : Edge) : Option (TolerantVisit κ) :=
  (rule e.input v.rest).map fun h =>
    { state := e.target
      rest := v.rest.drop h.consumed
      back := ⟨v.state, e.target, h.matched⟩ :: v.back
      said := if e.output.isEmpty || Label.isControl e.output then v.said else v.said + 1
      cost := Cost.add v.cost h.cost
      intent := (Label.intent? e.output).or v.intent }

/-- The visits one step further, in the order of the edges. -/
def advance (g : Graph) (o : SearchOptions) (rule : CostRule κ) (v : TolerantVisit κ) :
    List (TolerantVisit κ) :=
  (g.permitted o v.state).filterMap (cross? rule v)

/-- Records the visits of a level in turn.  Those that cost no more than the ceiling at their turn go on. -/
def sweep (g : Graph) (o : SearchOptions) (rule : CostRule κ) (s : TolerantSearch κ) :
    List (TolerantVisit κ) → TolerantSearch κ × List (TolerantVisit κ)
  | [] => (s, [])
  | v :: level =>
    let s := s.record g v
    let next := if Cost.less s.ceiling v.cost then [] else advance g o rule v
    let (s, later) := sweep g o rule s level
    (s, next ++ later)

/-- Goes on with a level and those after it, at most `bound` levels. -/
def run (g : Graph) (o : SearchOptions) (rule : CostRule κ) :
    Nat → TolerantSearch κ → List (TolerantVisit κ) → TolerantSearch κ
  | 0, s, _ => s
  | _, s, [] => s
  | bound + 1, s, level =>
    let (s, next) := sweep g o rule s level
    run g o rule bound s next

end TolerantSearch

namespace Graph

variable {κ : Type} [Cost κ]

/-- How many levels there are at most, if edges without a word form no cycle and every edge with one
consumes a token or costs a quarter at least. -/
def tolerantBound (g : Graph) (tokens : List String) : Nat :=
  (g.size + 1) * (tokens.length + 4 * g.size + 3)

/-- The cheapest paths of every intent; none for no tokens. -/
def tolerantMatches (g : Graph) (o : SearchOptions) (rule : CostRule κ) (tokens : List String) :
    TolerantMatches κ :=
  match g.start, tokens with
  | none, _ => []
  | _, [] => []
  | some start, tokens =>
    let first : TolerantVisit κ := ⟨start, tokens, [], 0, Cost.ofNat 0, none⟩
    (TolerantSearch.run g o rule (g.tolerantBound tokens) ⟨[], Cost.ofNat g.size⟩ [first]).found

end Graph

end Utterance
