import Utterance.Proofs.Recognition.Unambiguous

/-!
# What is said decides what is recognized

Emissions that say nothing are heard and taken down among the raw words.  They play no part
in the tokens of a recognition, nor in whether there is one: a converter is only given what
is said inside it (`convertParts_filter`), and of an entity that is closed only its name and
its tokens matter (`Speech.told`).  So emissions that say the same, whatever is heard besides,
come to the same intent and tokens or to the same error (`interpretEmissions_congr`).
-/

namespace Utterance

/-- The emission has a label, one that is said or one that steers. -/
def Emission.tells (e : Emission) : Bool := e.label != ""

/-- Something is said in the part, or steered. -/
def Part.tells (p : Part) : Bool :=
  match p.said with
  | .nothing => false
  | _ => true

/-! ## Converters -/

/-- What is only heard passes the converters by. -/
theorem convertParts_filter (cs : Converters) (es : List Emission) : ∀ frames : List Frame,
    (convertParts cs frames es).map (List.filter Part.tells) =
      (convertParts cs frames (es.filter Emission.tells)).map (List.filter Part.tells) := by
  induction es with
  | nil => exact fun _ => rfl
  | cons e rest ih =>
      intro frames
      by_cases htells : e.tells = true
      · rw [List.filter_cons_of_pos htells]
        have hmap : ∀ (frames : List Frame) (parts : List Part),
            ((convertParts cs frames rest).map (parts ++ ·)).map (List.filter Part.tells) =
              ((convertParts cs frames (rest.filter Emission.tells)).map (parts ++ ·)).map
                (List.filter Part.tells) := fun frames parts => by
          have happend : (List.filter Part.tells) ∘ (parts ++ ·) =
              (parts.filter Part.tells ++ ·) ∘ List.filter Part.tells :=
            funext fun l => List.filter_append parts l
          rw [Except.map_map, Except.map_map, happend, ← Except.map_map, ih frames,
            Except.map_map]
        rcases Control.converts_or_passes (Control.read? e.label) with ⟨key, h⟩ | ⟨key, h⟩ | h
        · rw [convertParts_begin h, convertParts_begin h]
          exact ih _
        · cases frames with
          | nil => rw [convertParts_end_nil h, convertParts_end_nil h]
          | cons f outer =>
              rw [convertParts_end h, convertParts_end h]
              split
              · rfl
              · cases f.close cs with
                | error err => rfl
                | ok parts =>
                    cases outer with
                    | nil => exact hmap [] parts
                    | cons g outer => exact ih _
        · cases frames with
          | nil =>
              rw [convertParts_passes_nil h, convertParts_passes_nil h]
              exact hmap [] [e.part]
          | cons f outer =>
              rw [convertParts_passes_cons h, convertParts_passes_cons h]
              split
              · exact ih _
              · exact hmap (f :: outer) [e.part]
      · -- nothing is said, so the emission becomes a part at once that says nothing
        have hlabel : e.label = "" := by simpa [Emission.tells] using htells
        have hsaid : e.part.said = .nothing := by rw [Emission.part, hlabel]; rfl
        have hpasses : Control.Passes (Control.read? e.label) := by
          rw [hlabel]
          exact Control.passes_none
        have hdrop : ∀ frames : List Frame,
            ((convertParts cs frames rest).map (e.part :: ·)).map (List.filter Part.tells) =
              (convertParts cs frames rest).map (List.filter Part.tells) := fun frames => by
          have hquiet : ¬ e.part.tells = true := by rw [Part.tells, hsaid]; exact Bool.false_ne_true
          rw [Except.map_map]
          exact congrArg (Except.map · _) (funext fun l => List.filter_cons_of_neg hquiet)
        rw [List.filter_cons_of_neg htells]
        cases frames with
        | nil => rw [convertParts_passes_nil hpasses, hdrop, ih]
        | cons f outer =>
            rw [convertParts_passes_cons hpasses, hsaid]
            exact (hdrop (f :: outer)).trans (ih _)

/-! ## Speeches -/

/-- What a speech holds of what is said: the names and tokens of the open entities, the
innermost first, and all tokens. -/
structure Told where
  opened : List (String × List Value) := []
  tokens : List Value := []

namespace Told

def say (s : Told) (v : Value) : Except InterpretError Told := do
  let text ← shown v
  if text.isEmpty then pure s
  else
    pure { opened := s.opened.modifyHead fun e => (e.1, e.2 ++ [v]), tokens := s.tokens ++ [v] }

/-- An entity is closed if its tokens have a text. -/
def close (s : Told) (label name : String) : Except InterpretError Told :=
  match s.opened with
  | [] => .error (.strayEntity label)
  | (opened, tokens) :: outer =>
    if opened != name then .error (.crossedEntities opened name)
    else
      match tokens with
      | [_] => .ok { s with opened := outer }
      | tokens => (shownAll tokens).map fun _ => { s with opened := outer }

def add (s : Told) : Said → Except InterpretError Told
  | .nothing => .ok s
  | .value v => s.say v
  | .control label =>
    match Control.read? label with
    | some (.beginEntity name) => .ok { s with opened := (name, []) :: s.opened }
    | some (.endEntity name) => s.close label name
    | some (.source _) => .ok s
    | _ => s.say (.text label)

/-- The tokens when all is said; no entity may be left open. -/
def ofSaid (l : List Said) : Except InterpretError (List Value) :=
  (l.foldlM add {}).bind fun s =>
    match s.opened with
    | [] => .ok s.tokens
    | (name, _) :: _ => .error (.openEntity name)

end Told

namespace Speech

def told (s : Speech) : Told := ⟨s.opened.map fun e => (e.name, e.tokens), s.tokens⟩

theorem told_mapInnermost (s : Speech) {f : Entity → Entity}
    (hf : ∀ e, ((f e).name, (f e).tokens) = (e.name, e.tokens)) :
    (s.mapInnermost f).told = s.told := by
  unfold mapInnermost
  cases hopened : s.opened with
  | nil => rfl
  | cons e outer =>
      rw [told, told, hopened, List.map_cons, List.map_cons, hf]

/-- Words that are heard are not said. -/
theorem told_hear (s : Speech) (words : List String) : (s.hear words).told = s.told :=
  s.told_mapInnermost (f := fun e => { e with rawTokens := e.rawTokens ++ words }) fun _ => rfl

theorem told_say (s : Speech) (v : Value) : (s.say v).map told = s.told.say v := by
  unfold say Told.say
  cases shown v with
  | error e => rfl
  | ok text =>
      by_cases hempty : text.isEmpty = true
      · simp only [bind, Except.bind, hempty, if_true]
        rfl
      · simp only [bind, Except.bind, hempty, Bool.false_eq_true, if_false]
        obtain ⟨opened, entities, tokens, rawTokens, offset, rawOffset⟩ := s
        cases opened <;> rfl

theorem told_closeEntity (s : Speech) (label name : String) :
    (s.closeEntity label name).map told = s.told.close label name := by
  unfold closeEntity Told.close told
  cases s.opened with
  | nil => rfl
  | cons e outer =>
      simp only [List.map_cons]
      split
      · rfl
      · unfold finish
        rcases e.tokens with _ | ⟨v, _ | ⟨w, rest⟩⟩
        · rfl
        · rfl
        · simp only [bind, Except.bind]
          cases shownAll (v :: w :: rest) <;> rfl

/-- What a part adds to what is told is what is said in it. -/
theorem told_add (s : Speech) (p : Part) : (s.add p).map told = s.told.add p.said := by
  rw [add, ← s.told_hear p.heard]
  cases p.said with
  | nothing => rfl
  | value v => exact told_say _ v
  | control label =>
      rw [Told.add]
      dsimp only
      cases Control.read? label with
      | none => exact told_say _ _
      | some c =>
          cases c with
          | beginEntity name => rfl
          | endEntity name => exact told_closeEntity _ label name
          | source slot =>
              exact congrArg Except.ok (told_mapInnermost _
                (f := fun e => { e with source := some slot }) fun _ => rfl)
          | _ => exact told_say _ _

theorem told_foldlM (l : List Part) : ∀ s : Speech,
    (l.foldlM add s).map told = (l.map Part.said).foldlM Told.add s.told := by
  induction l with
  | nil => exact fun _ => rfl
  | cons p l ih =>
      intro s
      rw [List.map_cons, List.foldlM_cons, List.foldlM_cons, ← told_add]
      cases s.add p with
      | error e => rfl
      | ok t => exact ih t

/-- The tokens of a speech come from what is said in its parts. -/
theorem tokens_ofParts (l : List Part) :
    (ofParts l).map tokens = Told.ofSaid ((l.filter Part.tells).map Part.said) := by
  have hquiet : ∀ s : Told, ((l.filter Part.tells).map Part.said).foldlM Told.add s =
      (l.map Part.said).foldlM Told.add s := by
    induction l with
    | nil => exact fun _ => rfl
    | cons p l ih =>
        intro s
        by_cases htells : p.tells = true
        · rw [List.filter_cons_of_pos htells, List.map_cons, List.map_cons, List.foldlM_cons,
            List.foldlM_cons]
          exact congrArg _ (funext ih)
        · have hsaid : p.said = .nothing := by
            rw [Part.tells] at htells
            split at htells
            next h => exact h
            next => exact absurd rfl htells
          rw [List.filter_cons_of_neg htells, List.map_cons, List.foldlM_cons, hsaid]
          exact ih s
  rw [Told.ofSaid, hquiet, show ({} : Told) = told {} from rfl, ← told_foldlM]
  unfold ofParts
  cases l.foldlM add {} with
  | error e => rfl
  | ok s =>
      obtain ⟨opened, entities, tokens, rawTokens, offset, rawOffset⟩ := s
      cases opened <;> rfl

end Speech

/-! ## Recognitions -/

/-- What a recognition says: its intent and its tokens. -/
def Recognition.told (r : Recognition) : String × List Value := (r.intent, r.tokens)

theorem told_interpretEmissions (cs : Converters) (intent : String) (es : List Emission)
    (cost : Option Float) :
    (interpretEmissions cs intent es cost).map Recognition.told =
      ((convertParts cs [] es).map (List.filter Part.tells)).bind fun parts =>
        (Told.ofSaid (parts.map Part.said)).bind fun tokens =>
          (shownAll tokens).map fun _ => (intent, tokens) := by
  unfold interpretEmissions
  cases convertParts cs [] es with
  | error e => rfl
  | ok parts =>
      change _ = (Told.ofSaid ((parts.filter Part.tells).map Part.said)).bind _
      rw [← Speech.tokens_ofParts]
      simp only [bind, Except.bind]
      cases Speech.ofParts parts with
      | error e => rfl
      | ok s =>
          simp only [Except.map]
          cases shownAll s.tokens <;> rfl

/-- Emissions that say the same are recognized with the same intent and the same tokens, or not at
all for the same reason. -/
theorem interpretEmissions_congr (cs : Converters) (intent : String) {es es' : List Emission}
    (h : es.filter Emission.tells = es'.filter Emission.tells) (cost : Option Float) :
    (interpretEmissions cs intent es cost).map Recognition.told =
      (interpretEmissions cs intent es' cost).map Recognition.told := by
  rw [told_interpretEmissions, told_interpretEmissions, convertParts_filter cs es, h,
    ← convertParts_filter]

end Utterance
