import Utterance.Proofs.Failing
import Utterance.Proofs.Graph.Label
import Utterance.Recognition.Part

/-!
# What converters leave of what is said

`Talk` is the part of converting that concerns values: a stack of open
converters, each with the values said inside it so far, and the values that no
converter is open for.  It goes through the labels one at a time (`Talk.step`).
The parts that `convertParts` makes of emissions say exactly what the talk over
their labels says, and if there are none, both fail alike
(`convertParts_values`).  The labels that steer entities pass through in their
order (`convertParts_steering`).
-/

namespace Utterance

/-! ## One converter -/

/-- What the converter under a key makes of values; it is not told of empty
texts. -/
def Converters.apply (cs : Converters) (key : String) (values : List Value) :
    Except InterpretError (List Value) :=
  match cs.get? ((key.pieces ',').headD "") with
  | none => .error (.unknownConverter ((key.pieces ',').headD ""))
  | some f =>
    match f (values.filter fun v => v.asText? != some "") (key.pieces ',').tail with
    | .ok vs => .ok vs
    | .error (.rejected message) => .error (.conversion key message)
    | .error .undisplayable => .error .undisplayable

/-- The values that parts say. -/
def saidValues (l : List Part) : List Value := l.filterMap fun p => p.said.value?

theorem saidValues_append (l m : List Part) :
    saidValues (l ++ m) = saidValues l ++ saidValues m := List.filterMap_append

theorem filterMap_cons_toList {α β : Type} (f : α → Option β) (a : α) (l : List α) :
    (a :: l).filterMap f = (f a).toList ++ l.filterMap f := by
  rw [List.filterMap_cons]
  cases f a <;> rfl

theorem saidValues_cons (p : Part) (l : List Part) :
    saidValues (p :: l) = p.said.value?.toList ++ saidValues l := filterMap_cons_toList _ p l

theorem filterMap_getElem?_range {α : Type} (l : List α) :
    ∀ n, l.length ≤ n → (List.range n).filterMap (l[·]?) = l := by
  induction l with
  | nil => exact fun n _ => List.filterMap_eq_nil_iff.mpr fun i _ => rfl
  | cons a l ih =>
      intro n hn
      obtain ⟨m, rfl⟩ : ∃ m, n = m + 1 := ⟨n - 1, by rw [List.length_cons] at hn; omega⟩
      have htail := ih m (Nat.le_of_succ_le_succ hn)
      rw [List.range_succ_eq_map, List.filterMap_cons, List.filterMap_map]
      exact congrArg (a :: ·) htail

/-- The parts of a closed converter say its values, in order. -/
theorem saidValues_align (raws : List String) (values : List Value) (matched : List (List String)) :
    saidValues (Frame.align raws values matched) = values := by
  have hvalue : ∀ v?, (Said.ofValue? v?).value? = v? := fun v? => by cases v? <;> rfl
  rw [saidValues, Frame.align, List.filterMap_map]
  simp only [Function.comp_def, hvalue]
  exact filterMap_getElem?_range values _ (by omega)

theorem Frame.close_values (cs : Converters) (f : Frame) :
    (f.close cs).map saidValues = cs.apply f.key (saidValues f.parts) := by
  unfold close Converters.apply name
  cases cs.get? ((f.key.pieces ',').headD "") with
  | none => rfl
  | some g =>
      change (match g f.values f.args with
        | .ok values => _
        | .error (.rejected message) => _
        | .error .undisplayable => _ : Except InterpretError (List Part)).map saidValues
        = match g f.values f.args with
        | .ok vs => _
        | .error (.rejected message) => _
        | .error .undisplayable => _
      cases g f.values f.args with
      | ok vs => exact congrArg Except.ok (saidValues_align _ _ _)
      | error e => cases e <;> rfl

/-- The mark opens or closes a converter. -/
def Control.isConverter : Control → Bool
  | .beginConvert _ => true
  | .endConvert _ => true
  | _ => false

/-- Neither opens nor closes a converter. -/
def Control.Passes (c? : Option Control) : Prop :=
  ∀ key, c? ≠ some (.beginConvert key) ∧ c? ≠ some (.endConvert key)

theorem Control.passes_none : Passes none :=
  fun _ => ⟨(Option.some_ne_none _).symm, (Option.some_ne_none _).symm⟩

theorem Control.passes_some {c : Control} (hc : c.isConverter = false) : Passes (some c) := by
  refine fun key => ⟨fun h => ?_, fun h => ?_⟩
  · rw [Option.some.inj h] at hc
    cases hc
  · rw [Option.some.inj h] at hc
    cases hc

/-- A control either opens a converter, closes one, or does neither. -/
theorem Control.converts_or_passes (c? : Option Control) :
    (∃ key, c? = some (.beginConvert key)) ∨ (∃ key, c? = some (.endConvert key)) ∨ Passes c? := by
  cases c? with
  | none => exact .inr (.inr passes_none)
  | some c =>
      cases c with
      | beginConvert key => exact .inl ⟨key, rfl⟩
      | endConvert key => exact .inr (.inl ⟨key, rfl⟩)
      | _ => exact .inr (.inr (passes_some rfl))

/-! ## Talks -/

structure Talk where
  /-- The keys of the converters that are open, the innermost first, with the
  values said inside. -/
  frames : List (String × List Value) := []
  said : List Value := []

namespace Talk

/-- Says values where the innermost converter is open. -/
def put (s : Talk) (vs : List Value) : Talk :=
  match s.frames with
  | [] => { s with said := s.said ++ vs }
  | (key, values) :: outer => { s with frames := (key, values ++ vs) :: outer }

@[simp] theorem put_nil (s : Talk) : s.put [] = s := by
  obtain ⟨frames, said⟩ := s
  cases frames with
  | nil => rw [put, List.append_nil]
  | cons f outer => simp only [put, List.append_nil]

theorem put_append (s : Talk) (vs ws : List Value) : s.put (vs ++ ws) = (s.put vs).put ws := by
  obtain ⟨frames, said⟩ := s
  cases frames with
  | nil => simp only [put, List.append_assoc]
  | cons f outer => simp only [put, List.append_assoc]

/-- Goes on with a label. -/
def step (cs : Converters) (s : Talk) (label : String) : Except InterpretError Talk :=
  match Control.read? label with
  | some (.beginConvert key) => .ok { s with frames := (key, []) :: s.frames }
  | some (.endConvert key) =>
    match s.frames with
    | [] => .error (.strayConverter label)
    | (opened, values) :: outer =>
      if opened != key then .error (.crossedConverters opened key)
      else (cs.apply opened values).map fun vs => put { s with frames := outer } vs
  | _ => .ok (s.put (Said.ofLabel label).value?.toList)

theorem step_begin {cs : Converters} {s : Talk} {label key : String}
    (h : Control.read? label = some (.beginConvert key)) :
    step cs s label = .ok { s with frames := (key, []) :: s.frames } := by
  unfold step
  rw [h]

theorem step_end {cs : Converters} {s : Talk} {label key : String}
    (h : Control.read? label = some (.endConvert key)) :
    step cs s label = match s.frames with
      | [] => .error (.strayConverter label)
      | (opened, values) :: outer =>
        if opened != key then .error (.crossedConverters opened key)
        else (cs.apply opened values).map fun vs => put { s with frames := outer } vs := by
  unfold step
  rw [h]

theorem step_passes {cs : Converters} {s : Talk} {label : String}
    (h : Control.Passes (Control.read? label)) :
    step cs s label = .ok (s.put (Said.ofLabel label).value?.toList) := by
  unfold step
  split
  next key hread => exact absurd hread (h key).1
  next key hread => exact absurd hread (h key).2
  next => rfl

def run (cs : Converters) (s : Talk) (labels : List String) : Except InterpretError Talk :=
  labels.foldlM (step cs) s

theorem run_nil (cs : Converters) (s : Talk) : run cs s [] = .ok s := rfl

theorem run_cons (cs : Converters) (s : Talk) (label : String) (labels : List String) :
    run cs s (label :: labels) = (step cs s label).bind fun s => run cs s labels :=
  List.foldlM_cons

theorem run_append (cs : Converters) (s : Talk) (labels more : List String) :
    run cs s (labels ++ more) = (run cs s labels).bind fun s => run cs s more :=
  List.foldlM_append

/-- What has been said at the end, when no converter may be open. -/
def result (s : Talk) : Except InterpretError (List Value) :=
  match s.frames with
  | [] => .ok s.said
  | (key, _) :: _ => .error (.openConverter key)

end Talk

def Frame.talk (f : Frame) : String × List Value := (f.key, saidValues f.parts)

theorem Frame.talk_add (f : Frame) (parts : List Part) :
    (f.add parts).talk = (f.key, saidValues f.parts ++ saidValues parts) := by
  rw [talk, add, saidValues_append]

theorem Except.bind_pure_eq_map {ε α β : Type} (x : Except ε α) (f : α → β) :
    (do let a ← x; pure (f a)) = x.map f := by
  cases x <;> rfl

theorem Except.map_map {ε α β γ : Type} (x : Except ε α) (f : α → β) (g : β → γ) :
    (x.map f).map g = x.map (g ∘ f) := by
  cases x <;> rfl

theorem Except.bind_eq_ok {ε α β : Type} {x : Except ε α} {f : α → Except ε β} {b : β} :
    x.bind f = .ok b ↔ ∃ a, x = .ok a ∧ f a = .ok b := by
  cases x with
  | error e => exact ⟨nofun, nofun⟩
  | ok a => exact ⟨fun h => ⟨a, rfl, h⟩, fun ⟨_, ha, hb⟩ => by cases ha; exact hb⟩

section

variable {cs : Converters} {e : Emission} {rest : List Emission}

theorem convertParts_begin {key : String} (h : Control.read? e.label = some (.beginConvert key))
    (frames : List Frame) :
    convertParts cs frames (e :: rest) = convertParts cs ({ key } :: frames) rest := by
  rw [convertParts.eq_def]
  simp only [h]

theorem convertParts_end_nil {key : String} (h : Control.read? e.label = some (.endConvert key)) :
    convertParts cs [] (e :: rest) = .error (.strayConverter e.label) := by
  rw [convertParts.eq_def]
  simp only [h]

theorem convertParts_end {key : String} (h : Control.read? e.label = some (.endConvert key))
    (f : Frame) (outer : List Frame) :
    convertParts cs (f :: outer) (e :: rest)
      = if f.key != key then .error (.crossedConverters f.key key)
        else (f.close cs).bind fun parts =>
          match outer with
          | [] => (convertParts cs [] rest).map (parts ++ ·)
          | g :: outer => convertParts cs (g.add parts :: outer) rest := by
  rw [convertParts.eq_def]
  simp only [h, Except.bind_pure_eq_map]
  rfl

theorem convertParts_passes_nil (h : Control.Passes (Control.read? e.label)) :
    convertParts cs [] (e :: rest) = (convertParts cs [] rest).map (e.part :: ·) := by
  rw [convertParts.eq_def]
  simp only [Except.bind_pure_eq_map]
  cases hread : Control.read? e.label with
  | none => rfl
  | some c =>
      rw [hread] at h
      cases c with
      | beginConvert key => exact absurd rfl (h key).1
      | endConvert key => exact absurd rfl (h key).2
      | _ => rfl

theorem convertParts_passes_cons (h : Control.Passes (Control.read? e.label)) (f : Frame)
    (outer : List Frame) :
    convertParts cs (f :: outer) (e :: rest)
      = match e.part.said.value? with
        | some _ => convertParts cs (f.add [e.part] :: outer) rest
        | none => (convertParts cs (f :: outer) rest).map (e.part :: ·) := by
  rw [convertParts.eq_def]
  simp only [Except.bind_pure_eq_map, Emission.part]
  cases hread : Control.read? e.label with
  | none => cases Said.ofLabel e.label <;> rfl
  | some c =>
      rw [hread] at h
      cases c with
      | beginConvert key => exact absurd rfl (h key).1
      | endConvert key => exact absurd rfl (h key).2
      | _ => cases Said.ofLabel e.label <;> rfl

end

/-- The parts of emissions say what the talk over the labels says. -/
theorem convertParts_values (cs : Converters) (es : List Emission) :
    ∀ (frames : List Frame) (said : List Value),
    (convertParts cs frames es).map (fun parts => said ++ saidValues parts)
      = (Talk.run cs ⟨frames.map Frame.talk, said⟩ (es.map Emission.label)).bind Talk.result := by
  induction es with
  | nil =>
      intro frames said
      cases frames with
      | nil => exact congrArg Except.ok (List.append_nil said)
      | cons f outer => rfl
  | cons e rest ih =>
      intro frames said
      rw [List.map_cons, Talk.run_cons]
      rcases Control.converts_or_passes (Control.read? e.label) with ⟨key, h⟩ | ⟨key, h⟩ | h
      · rw [convertParts_begin h, Talk.step_begin h]
        exact ih ({ key } :: frames) said
      · rw [Talk.step_end h]
        cases frames with
        | nil =>
            rw [convertParts_end_nil h]
            rfl
        | cons f outer =>
            rw [convertParts_end h]
            by_cases hkey : (f.key != key) = true
            · simp only [List.map_cons, Frame.talk, if_pos hkey]
              rfl
            · simp only [List.map_cons, Frame.talk, if_neg hkey, ← f.close_values cs]
              cases f.close cs with
              | error err => rfl
              | ok parts =>
                  -- what the converter gives is said where the next one is open, if any is
                  cases outer with
                  | nil =>
                      have hrest := ih [] (said ++ saidValues parts)
                      simp only [List.append_assoc, ← saidValues_append] at hrest
                      change ((convertParts cs [] rest).map (parts ++ ·)).map _ = _
                      rw [Except.map_map]
                      exact hrest
                  | cons g outer =>
                      have hrest := ih (g.add parts :: outer) said
                      rw [List.map_cons, g.talk_add] at hrest
                      exact hrest
      · rw [Talk.step_passes h]
        cases frames with
        | nil =>
            have hrest := ih [] (said ++ e.part.said.value?.toList)
            rw [convertParts_passes_nil h, Except.map_map]
            simp only [Function.comp_def, saidValues_cons, ← List.append_assoc]
            exact hrest
        | cons f outer =>
            rw [convertParts_passes_cons h]
            change _ = ((Except.ok (Talk.put _ e.part.said.value?.toList)).bind _).bind _
            cases hvalue : e.part.said.value? with
            | some v =>
                have hrest := ih (f.add [e.part] :: outer) said
                rw [List.map_cons, f.talk_add, saidValues_cons, hvalue] at hrest
                exact hrest
            | none =>
                simp only [Except.map_map, Function.comp_def, saidValues_cons, hvalue]
                rw [Option.toList, Talk.put_nil]
                exact ih (f :: outer) said

/-! ## Labels that pass through -/

/-- The label by which a part steers. -/
def Part.steering? (p : Part) : Option String :=
  match p.said with
  | .control label => some label
  | _ => none

/-- The label steers and is not a converter's. -/
def Emission.steering? (e : Emission) : Option String :=
  match Control.read? e.label with
  | some (.beginConvert _) => none
  | some (.endConvert _) => none
  | _ => e.part.steering?

theorem Emission.steering?_of_passes {e : Emission} (h : Control.Passes (Control.read? e.label)) :
    e.steering? = e.part.steering? := by
  unfold steering?
  split
  next key hread => exact absurd hread (h key).1
  next key hread => exact absurd hread (h key).2
  next => rfl

/-- The parts of a closed converter do not steer. -/
theorem steering?_of_mem_close {cs : Converters} {f : Frame} {parts : List Part}
    (h : f.close cs = .ok parts) : ∀ p ∈ parts, p.steering? = none := by
  have halign : ∀ raws values matched, ∀ p ∈ Frame.align raws values matched,
      p.steering? = none := by
    intro raws values matched p hp
    obtain ⟨i, -, rfl⟩ := List.mem_map.mp hp
    cases hv : values[i]? <;> rw [Part.steering?, Said.ofValue?]
  unfold Frame.close at h
  split at h
  next => cases h
  next =>
    split at h
    next =>
      cases h
      exact halign _ _ _
    next => cases h
    next => cases h

/-- The labels that steer entities pass through converting in their order. -/
theorem convertParts_steering {cs : Converters} {es : List Emission} :
    ∀ {frames : List Frame} {parts : List Part}, convertParts cs frames es = .ok parts →
      parts.filterMap Part.steering? = es.filterMap Emission.steering? := by
  induction es with
  | nil =>
      intro frames parts h
      cases frames with
      | nil =>
          cases h
          rfl
      | cons f outer => cases h
  | cons e rest ih =>
      intro frames parts h
      have hmap : ∀ {frames : List Frame},
          (convertParts cs frames rest).map (e.part :: ·) = .ok parts →
          Control.Passes (Control.read? e.label) →
          parts.filterMap Part.steering? = (e :: rest).filterMap Emission.steering? := by
        intro frames hparts hpasses
        obtain ⟨later, hrest, rfl⟩ := Except.map_eq_ok.mp hparts
        rw [List.filterMap_cons, List.filterMap_cons, ih hrest,
          Emission.steering?_of_passes hpasses]
      rcases Control.converts_or_passes (Control.read? e.label) with ⟨key, hread⟩ | ⟨key, hread⟩ | hp
      · rw [convertParts_begin hread] at h
        have hnone : e.steering? = none := by rw [Emission.steering?, hread]
        rw [List.filterMap_cons, hnone]
        exact ih h
      · have hnone : e.steering? = none := by rw [Emission.steering?, hread]
        rw [List.filterMap_cons, hnone]
        cases frames with
        | nil =>
            rw [convertParts_end_nil hread] at h
            cases h
        | cons f outer =>
            rw [convertParts_end hread] at h
            split at h
            next => cases h
            next =>
              obtain ⟨closed, hclose, h⟩ := Except.bind_eq_ok.mp h
              cases outer with
              | cons g outer => exact ih h
              | nil =>
                  obtain ⟨later, hrest, rfl⟩ := Except.map_eq_ok.mp h
                  have hclosed : closed.filterMap Part.steering? = [] :=
                    List.filterMap_eq_nil_iff.mpr (steering?_of_mem_close hclose)
                  rw [List.filterMap_append, hclosed, ih hrest]
                  rfl
      · cases frames with
        | nil =>
            rw [convertParts_passes_nil hp] at h
            exact hmap h hp
        | cons f outer =>
            rw [convertParts_passes_cons hp] at h
            split at h
            next v hvalue =>
              have hnone : e.steering? = none := by
                rw [Emission.steering?_of_passes hp, Part.steering?]
                cases hsaid : e.part.said with
                | control label =>
                    rw [hsaid] at hvalue
                    cases hvalue
                | _ => rfl
              rw [List.filterMap_cons, hnone]
              exact ih h
            next => exact hmap h hp

end Utterance
