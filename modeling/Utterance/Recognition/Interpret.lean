import Utterance.Recognition.Speech

/-!
# The meaning of a path

`Graph.interpret` takes a path through all stages: emissions, parts, and what is taken down of them.
-/

namespace Utterance

/-- How sure a recognition is whose path has a cost, when so many words were heard. -/
def confidence (cost : Option Float) (heard : Nat) : Float :=
  match cost with
  | none => 1
  | some cost =>
    if cost > 0 then
      if heard == 0 then 0
      else
        let x := 1 - cost / Float.ofNat heard
        if x < 0 then 0 else if x > 1 then 1 else x
    else 1

/-- The recognition that a path stands for. -/
def Graph.interpret (g : Graph) (cs : Converters) (p : Path) (cost : Option Float := none) :
    Except InterpretError Recognition := do
  let emissions ← g.emissions p
  let parts ← convertParts cs [] (emissions.filter Emission.counts)
  let speech ← Speech.ofParts parts
  let text ← shownAll speech.tokens
  pure
    { intent := intentOf emissions
      confidence := confidence cost speech.rawTokens.length
      entities := speech.entities
      text
      rawText := spaced speech.rawTokens
      tokens := speech.tokens
      rawTokens := speech.rawTokens }

end Utterance
