import Utterance.Recognition.Emission
import Utterance.Value.Convert

/-!
# The parts of an utterance

Emissions become parts, in which converters have done their work.  Between the labels that open and close a
converter the words said are collected in a frame; where it is closed, the converter turns their values into
others, which take their places.  Other labels that steer pass through, even where a frame is open.
-/

namespace Utterance

inductive Said where
  | nothing
  | control (label : String)
  | value (v : Value)
deriving Repr, Inhabited

structure Part where
  raw : String
  said : Said
  matched : List String
deriving Repr, Inhabited

namespace Said

def ofValue? : Option Value → Said
  | some v => value v
  | none => nothing

def value? : Said → Option Value
  | value v => some v
  | _ => none

/-- A label says itself, steers, or says nothing. -/
def ofLabel (label : String) : Said :=
  if label.isEmpty then nothing
  else if Label.isControl label then control label
  else value (.text label)

end Said

def Emission.part (e : Emission) : Part := ⟨e.raw, Said.ofLabel e.label, e.matched⟩

/-- A converter that is open, with the parts inside it so far. -/
structure Frame where
  /-- The converter's name with its arguments after commas. -/
  key : String
  parts : List Part := []
deriving Repr, Inhabited

namespace Frame

def name (f : Frame) : String := (f.key.pieces ',').headD ""

def args (f : Frame) : List String := (f.key.pieces ',').tail

def add (f : Frame) (parts : List Part) : Frame := { f with parts := f.parts ++ parts }

/-- The words heard inside the frame. -/
def raws (f : Frame) : List String := (f.parts.map Part.raw).filter (!·.isEmpty)

/-- The values said inside the frame, without empty texts. -/
def values (f : Frame) : List Value :=
  (f.parts.filterMap fun p => p.said.value?).filter fun v => v.asText? != some ""

/-- The lists of tokens matched inside the frame. -/
def matched (f : Frame) : List (List String) := (f.parts.map Part.matched).filter (!·.isEmpty)

/-- Lines up what was heard, said and matched, as many parts as the longest list has elements. -/
def align (raws : List String) (values : List Value) (matched : List (List String)) : List Part :=
  (List.range (max raws.length (max values.length matched.length))).map fun i =>
    ⟨raws.getD i "", Said.ofValue? values[i]?, matched.getD i []⟩

/-- The parts that take the place of the frame's own. -/
def close (cs : Converters) (f : Frame) : Except InterpretError (List Part) :=
  match cs.get? f.name with
  | none => .error (.unknownConverter f.name)
  | some converter =>
    match converter f.values f.args with
    | .ok values => .ok (align f.raws values f.matched)
    | .error (.rejected message) => .error (.conversion f.key message)
    | .error .undisplayable => .error .undisplayable

end Frame

/-- The parts of the emissions, where the given frames are open, the innermost first. -/
def convertParts (cs : Converters) : List Frame → List Emission → Except InterpretError (List Part)
  | [], [] => .ok []
  | f :: _, [] => .error (.openConverter f.key)
  | frames, e :: rest =>
    match Control.read? e.label, frames with
    | some (.beginConvert key), frames => convertParts cs ({ key } :: frames) rest
    | some (.endConvert _), [] => .error (.strayConverter e.label)
    | some (.endConvert key), f :: outer =>
      if f.key != key then .error (.crossedConverters f.key key)
      else do
        let parts ← f.close cs
        match outer with
        | [] => do
          let later ← convertParts cs [] rest
          pure (parts ++ later)
        | g :: outer => convertParts cs (g.add parts :: outer) rest
    | _, f :: outer =>
      match Said.ofLabel e.label with
      | .value _ => convertParts cs (f.add [e.part] :: outer) rest
      | _ => do
        let later ← convertParts cs (f :: outer) rest
        pure (e.part :: later)
    | _, [] => do
      let later ← convertParts cs [] rest
      pure (e.part :: later)

end Utterance
