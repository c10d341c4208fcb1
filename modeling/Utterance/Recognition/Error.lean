/-!
# Why a path has no interpretation
-/

namespace Utterance

inductive InterpretError where
  /-- The path takes an edge that the graph does not have. -/
  | noEdge (source target : Nat)
  /-- The label is packed badly. -/
  | badLabel (label : String)
  /-- A converter is closed, and none is open. -/
  | strayConverter (label : String)
  /-- Another converter is closed than the innermost one. -/
  | crossedConverters (expected got : String)
  | openConverter (key : String)
  | unknownConverter (name : String)
  /-- The converter rejects its values. -/
  | conversion (key message : String)
  /-- An entity is closed, and none is open. -/
  | strayEntity (label : String)
  /-- Another entity is closed than the innermost one. -/
  | crossedEntities (expected got : String)
  | openEntity (name : String)
  /-- A value has no text. -/
  | undisplayable
deriving DecidableEq, Repr, Inhabited

def InterpretError.message : InterpretError → String
  | noEdge source target =>
    "path does not follow the graph: no edge " ++ toString source ++ " -> " ++ toString target
  | badLabel label => "invalid label: " ++ label
  | strayConverter label =>
    "unbalanced converter markers: " ++ label ++ " without a matching convert"
  | crossedConverters expected got =>
    "unbalanced converter markers: expected " ++ expected ++ ", got " ++ got
  | openConverter key => "unbalanced converter markers: " ++ key ++ " still open at end of path"
  | unknownConverter name => "unknown converter: " ++ name
  | conversion key message => "converter " ++ key ++ " failed: " ++ message
  | strayEntity label => "unbalanced entity markers: " ++ label ++ " without a matching begin"
  | crossedEntities expected got =>
    "unbalanced entity markers: expected end of " ++ expected ++ ", got " ++ got
  | openEntity name => "unbalanced entity markers: " ++ name ++ " still open at end of path"
  | undisplayable => "a value has no text"

end Utterance
