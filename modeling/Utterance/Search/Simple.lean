import Utterance.Search.Basic

/-!
# Simple paths

`Graph.simplePaths` lists the ways from the start to the final state that come through no state twice,
depth first, in the order of the edges.  They match nothing, and so tell what the graph can be made to say.
-/

namespace Utterance

/-- What `f` gives for the elements of a list in turn, as long as there is room; `f` is told how much. -/
def collect {α β : Type} (f : Option Nat → α → List β) : Option Nat → List α → List β
  | _, [] => []
  | none, a :: l => f none a ++ collect f none l
  | some 0, _ => []
  | some n, a :: l =>
    let here := f (some n) a
    here ++ collect f (some (n - here.length)) l

namespace Graph

/-- The simple ways from a state to `final` that come through none of the states `passed`, which include
the state itself.  At most `bound` steps are taken. -/
def simpleFrom (g : Graph) (final : Nat) : Nat → List Nat → Nat → Option Nat → List Path
  | 0, _, _, _ => []
  | bound + 1, passed, s, room =>
    collect (fun room e =>
      if passed.contains e.target then []
      else if e.target == final then [[⟨s, e.target, []⟩]]
      else
        (simpleFrom g final bound (e.target :: passed) e.target room).map (⟨s, e.target, []⟩ :: ·))
      room (g.edgesFrom s)

/-- The simple paths from the start to the final state, at most as many as the limit says. -/
def simplePaths (g : Graph) (limit : Option Nat := none) : List Path :=
  match g.start, g.final with
  | some start, some final => g.simpleFrom final g.size [start] start limit
  | _, _ => []

end Graph

end Utterance
