import Utterance.Recognition.Basic
import Utterance.Recognition.Part

/-!
# From parts to entities

The parts of an utterance are gone through in their order.  Words heard and values said are written down with
the offset at which the next one will start; labels open and close entities, which take down what is heard
and said while they are the innermost open one.
-/

namespace Utterance

structure Speech where
  /-- The entities that are open, the innermost first. -/
  opened : List Entity := []
  entities : List Entity := []
  tokens : List Value := []
  rawTokens : List String := []
  /-- Where the next word of the text starts. -/
  offset : Nat := 0
  /-- Where the next word of the raw text starts. -/
  rawOffset : Nat := 0
deriving Repr, Inhabited

def shown (v : Value) : Except InterpretError String :=
  match v.display? with
  | some s => .ok s
  | none => .error .undisplayable

def shownAll (l : List Value) : Except InterpretError String := do
  let texts ← l.mapM shown
  pure (spaced texts)

/-- What is heard in a part: the tokens it matched, or else its word. -/
def Part.heard (p : Part) : List String :=
  if !p.matched.isEmpty then p.matched else if !p.raw.isEmpty then [p.raw] else []

/-- How much a word takes up, with the space after it. -/
def room (word : String) : Nat := word.length + 1

/-- How much several words take up, one after the other. -/
def roomAll : List String → Nat
  | [] => 0
  | word :: rest => room word + roomAll rest

namespace Speech

/-- Changes the innermost open entity. -/
def mapInnermost (s : Speech) (f : Entity → Entity) : Speech :=
  match s.opened with
  | [] => s
  | e :: outer => { s with opened := f e :: outer }

def hear (s : Speech) (words : List String) : Speech :=
  let s := s.mapInnermost fun e => { e with rawTokens := e.rawTokens ++ words }
  { s with
    rawTokens := s.rawTokens ++ words
    rawOffset := s.rawOffset + roomAll words }

/-- Takes down a value, unless its text is empty. -/
def say (s : Speech) (v : Value) : Except InterpretError Speech := do
  let text ← shown v
  if text.isEmpty then pure s
  else
    let s := s.mapInnermost fun e => { e with tokens := e.tokens ++ [v] }
    pure { s with tokens := s.tokens ++ [v], offset := s.offset + room text }

def openEntity (s : Speech) (name : String) : Speech :=
  let e : Entity :=
    { name, value := .text "", rawValue := "", source := none
      first := s.offset, last := s.offset, rawFirst := s.rawOffset, rawLast := s.rawOffset
      tokens := [], rawTokens := [] }
  { s with opened := e :: s.opened }

/-- Gives an entity its value, which is its only token or else the text of its tokens, and its end, which
is before the space that the next word starts after. -/
def finish (s : Speech) (e : Entity) : Except InterpretError Entity := do
  let value ← match e.tokens with
    | [v] => pure v
    | l => do pure (.text (← shownAll l))
  pure { e with
    value, rawValue := spaced e.rawTokens
    last := s.offset - 1, rawLast := s.rawOffset - 1 }

/-- Closes the innermost open entity, which must have that name. -/
def closeEntity (s : Speech) (label name : String) : Except InterpretError Speech :=
  match s.opened with
  | [] => .error (.strayEntity label)
  | e :: outer =>
    if e.name != name then .error (.crossedEntities e.name name)
    else do
      let e ← s.finish e
      pure { s with opened := outer, entities := s.entities ++ [e] }

/-- Takes down one part. -/
def add (s : Speech) (p : Part) : Except InterpretError Speech :=
  let s := s.hear p.heard
  match p.said with
  | .nothing => .ok s
  | .value v => s.say v
  | .control label =>
    match Control.read? label with
    | some (.beginEntity name) => .ok (s.openEntity name)
    | some (.endEntity name) => s.closeEntity label name
    | some (.source slot) => .ok (s.mapInnermost fun e => { e with source := some slot })
    | _ => s.say (.text label)

/-- Takes down all parts; no entity may be left open. -/
def ofParts (l : List Part) : Except InterpretError Speech := do
  let s ← l.foldlM add {}
  match s.opened with
  | [] => pure s
  | e :: _ => .error (.openEntity e.name)

end Speech

end Utterance
