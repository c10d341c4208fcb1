import Utterance.Search.Basic
import Utterance.Template.Expr

/-!
# Paths that match the whole input

`Graph.exactPaths` finds the paths from the start to the final state on which every token of the input is
matched, the shorter ones first.  The search goes by levels: a level holds all partial paths of one length,
and the next one holds their extensions in the same order.
-/

namespace Utterance

/-- Where a search has come to: the state, the tokens that are left, and the steps taken, the last one
first. -/
structure Visit where
  state : Nat
  rest : List String
  back : Path
deriving DecidableEq, Repr, Inhabited

namespace Visit

def isAccepted (g : Graph) (v : Visit) : Bool := g.isFinal v.state && v.rest.isEmpty

def path (v : Visit) : Path := v.back.reverse

end Visit

/-- What an edge matches in front of the tokens `rest`, and what is left of them; none if it cannot be
taken.  A word that is `optional` is passed without a match. -/
def Edge.hear? (o : SearchOptions) (optional : String → Bool) (e : Edge) (rest : List String) :
    Option (List String × List String) :=
  if e.isEpsilon then some ([], rest)
  else
    match rest with
    | [] => none
    | token :: later =>
      if e.input == wildcard || o.same e.input token then some ([token], later)
      else if optional (o.transform e.input) then some ([], rest)
      else none

namespace Graph

/-- The visits one step further, in the order of the edges. -/
def advance (g : Graph) (o : SearchOptions) (optional : String → Bool) (v : Visit) : List Visit :=
  (g.permitted o v.state).filterMap fun e =>
    (e.hear? o optional v.rest).map fun (matched, rest) =>
      ⟨e.target, rest, ⟨v.state, e.target, matched⟩ :: v.back⟩

/-- The accepted paths of a level and of those after it, at most `bound` levels.  With a limit, the search
ends after the level that reaches it. -/
def exactFrom (g : Graph) (o : SearchOptions) (optional : String → Bool) :
    Nat → Option Nat → List Visit → List Path
  | 0, _, _ => []
  | _, _, [] => []
  | bound + 1, limit, level =>
    let found := (level.filter (Visit.isAccepted g)).map Visit.path
    match limit with
    | none => found ++ exactFrom g o optional bound none (level.flatMap (g.advance o optional))
    | some n =>
      if n ≤ found.length then found.take n
      else
        found ++ exactFrom g o optional bound (some (n - found.length))
          (level.flatMap (g.advance o optional))

/-- How many levels there are at most before `count` paths have been found: a path that passes through no
state twice without matching a token has fewer steps than there are pairs of a state and a number of tokens
left. -/
def exactBound (g : Graph) (tokens : List String) (count : Nat) : Nat :=
  g.size * (tokens.length + 1) * (count + 1) + 1

/-- The paths on which every token is matched; none for no tokens.  A limit leaves at least one path. -/
def exactPaths (g : Graph) (o : SearchOptions) (tokens : List String)
    (optional : String → Bool := fun _ => false) (limit : Option Nat := none) : List Path :=
  match g.start, tokens with
  | none, _ => []
  | _, [] => []
  | some start, tokens =>
    let limit := limit.map (max 1)
    g.exactFrom o optional (g.exactBound tokens (limit.getD 0)) limit [⟨start, tokens, []⟩]

end Graph

end Utterance
