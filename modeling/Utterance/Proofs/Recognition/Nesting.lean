import Utterance.Proofs.Recognition.Converting

/-!
# Nested marks

`Control.nest` checks marks against the stack of what is open: what is closed
must be the innermost open entity or converter.  Interpreting splits this one
stack into two, the converters of a `Talk` and the open entities of a `Speech`.
Marks that are nested stay so for each of them (`nestNames_of_nestAll`), so that
a talk over nested marks fails only if a converter does (`Talk.run_of_nestAll`).
-/

namespace Utterance

/-! ## The stack of what is open -/

inductive Opened where
  | entity (name : String)
  | converter (key : String)
deriving DecidableEq, Repr, Inhabited

def Opened.name? : Opened → Option String
  | entity name => some name
  | converter _ => none

def Opened.key? : Opened → Option String
  | entity _ => none
  | converter key => some key

/-- The stack after a mark.  Only the innermost can be closed, and no intent may
start. -/
def Control.nest : List Opened → Control → Option (List Opened)
  | S, .beginEntity name => some (.entity name :: S)
  | S, .beginConvert key => some (.converter key :: S)
  | S, .source _ => some S
  | .entity opened :: S, .endEntity name => if opened = name then some S else none
  | .converter opened :: S, .endConvert key => if opened = key then some S else none
  | _, _ => none

def nestAll (S : List Opened) (l : List Control) : Option (List Opened) := l.foldlM Control.nest S

/-- Everything that is opened is closed again, the innermost first. -/
def Nested (l : List Control) : Prop := nestAll [] l = some []

instance (l : List Control) : Decidable (Nested l) := inferInstanceAs (Decidable (_ = _))

theorem nestAll_cons (S : List Opened) (c : Control) (l : List Control) :
    nestAll S (c :: l) = (c.nest S).bind fun S => nestAll S l := List.foldlM_cons

theorem nestAll_append (S : List Opened) (l m : List Control) :
    nestAll S (l ++ m) = (nestAll S l).bind fun S => nestAll S m := List.foldlM_append

/-- What a mark does to the stack, if it may stand there. -/
theorem Control.nest_eq_some {c : Control} {S S' : List Opened} (h : c.nest S = some S') :
    (∃ name, c = .beginEntity name ∧ S' = .entity name :: S)
      ∨ (∃ name, c = .endEntity name ∧ S = .entity name :: S')
      ∨ (∃ key, c = .beginConvert key ∧ S' = .converter key :: S)
      ∨ (∃ key, c = .endConvert key ∧ S = .converter key :: S')
      ∨ (∃ slot, c = .source slot ∧ S' = S) := by
  unfold nest at h
  split at h
  next name => exact .inl ⟨name, rfl, (Option.some.inj h).symm⟩
  next key => exact .inr (.inr (.inl ⟨key, rfl, (Option.some.inj h).symm⟩))
  next slot => exact .inr (.inr (.inr (.inr ⟨slot, rfl, (Option.some.inj h).symm⟩)))
  next opened S name =>
    split at h
    next heq => exact .inr (.inl ⟨name, rfl, by rw [heq, Option.some.inj h]⟩)
    next => cases h
  next opened S key =>
    split at h
    next heq => exact .inr (.inr (.inr (.inl ⟨key, rfl, by rw [heq, Option.some.inj h]⟩)))
    next => cases h
  next => cases h

/-! ## Values that have a text -/

def Value.Displayable (v : Value) : Prop := v.display?.isSome

theorem displayable_text (s : String) : (Value.text s).Displayable := rfl

/-- Converters give displayable values for displayable values. -/
def Converters.Displays (cs : Converters) : Prop :=
  ∀ {name f values args vs}, cs.get? name = some f → (∀ v ∈ values, v.Displayable) →
    f values args = .ok vs → ∀ v ∈ vs, v.Displayable

/-- No converter fails to show a value that has a text. -/
def Converters.Shows (cs : Converters) : Prop :=
  ∀ {name f values args}, cs.get? name = some f → (∀ v ∈ values, Value.Displayable v) →
    f values args ≠ .error .undisplayable

/-- A converter that goes through the values one by one takes displayable values if
it takes each of them. -/
theorem exists_each {f : Value → Except ConvertError Value}
    (hf : ∀ {v}, v.Displayable → ∃ w, f v = .ok w ∧ w.Displayable) (args : List String) :
    ∀ {values : List Value}, (∀ v ∈ values, v.Displayable) →
      ∃ vs, Convert.each f values args = .ok vs ∧ ∀ v ∈ vs, v.Displayable
  | [], _ => ⟨[], rfl, fun _ hv => (List.not_mem_nil hv).elim⟩
  | v :: values, hvalues => by
      obtain ⟨w, hw, hdisplayable⟩ := hf (hvalues v List.mem_cons_self)
      obtain ⟨ws, hws, hrest⟩ :=
        exists_each hf args fun u hu => hvalues u (List.mem_cons_of_mem _ hu)
      unfold Convert.each at hws
      refine ⟨w :: ws, ?_, fun u hu => ?_⟩
      · unfold Convert.each
        rw [List.mapM_cons, hw, hws]
        rfl
      · rcases List.mem_cons.mp hu with rfl | hu
        · exact hdisplayable
        · exact hrest u hu

/-- A registry with a single converter, which takes all displayable values. -/
def upperConverters : Converters :=
  ⟨[("upper", Convert.each (Convert.changeCase String.upperCase))]⟩

theorem upperConverters_spec {name : String} {f : Converter}
    (hf : upperConverters.get? name = some f) (args : List String) {values : List Value}
    (hvalues : ∀ v ∈ values, v.Displayable) :
    ∃ vs, f values args = .ok vs ∧ ∀ v ∈ vs, v.Displayable := by
  rw [Converters.get?, upperConverters, List.lookup_cons] at hf
  split at hf
  · cases hf
    refine exists_each (fun {v} hv => ?_) args hvalues
    obtain ⟨text, htext⟩ := Option.isSome_iff_exists.mp hv
    refine ⟨.text (String.upperCase text), ?_, displayable_text _⟩
    rw [Convert.changeCase, Convert.textOf, htext]
    rfl
  · cases hf

theorem displays_upperConverters : upperConverters.Displays := by
  intro name f values args vs hf hvalues hvs
  obtain ⟨ws, hws, hdisplayable⟩ := upperConverters_spec hf args hvalues
  obtain rfl := Except.ok.inj (hws.symm.trans hvs)
  exact hdisplayable

theorem shows_upperConverters : upperConverters.Shows := by
  intro name f values args hf hvalues herr
  obtain ⟨ws, hws, -⟩ := upperConverters_spec hf args hvalues
  rw [hws] at herr
  cases herr

/-- A converter is missing or rejects its values. -/
def InterpretError.FromConverter : InterpretError → Prop
  | .unknownConverter _ => True
  | .conversion _ _ => True
  | _ => False

/-- The converters that are closed by the controls of a list give displayable values
for displayable values. -/
def Converters.DisplaysOn (cs : Converters) (l : List Control) : Prop :=
  ∀ {key values vs}, Control.endConvert key ∈ l → (∀ v ∈ values, Value.Displayable v) →
    cs.apply key values = .ok vs → ∀ v ∈ vs, v.Displayable

/-- What a converter comes to: it is missing, or it decides about some of the values. -/
theorem Converters.apply_cases (cs : Converters) (key : String) (values : List Value) :
    (∃ name, cs.apply key values = .error (.unknownConverter name)) ∨
      ∃ name f args inputs, cs.get? name = some f ∧ inputs ⊆ values ∧
        cs.apply key values = match f inputs args with
          | .ok vs => .ok vs
          | .error (.rejected message) => .error (.conversion key message)
          | .error .undisplayable => .error .undisplayable := by
  unfold apply
  split
  next => exact .inl ⟨_, rfl⟩
  next f hget => exact .inr ⟨_, f, _, _, hget, List.filter_subset_self _, rfl⟩

theorem Converters.Displays.on {cs : Converters} (hcs : cs.Displays) (l : List Control) :
    cs.DisplaysOn l := by
  intro key values vs _ hvalues h
  rcases cs.apply_cases key values with ⟨name, herr⟩ | ⟨name, f, args, inputs, hget, hsub, heq⟩
  · rw [herr] at h
    cases h
  · rw [heq] at h
    split at h
    next ws hws =>
      cases h
      exact hcs hget (fun v hv => hvalues v (hsub hv)) hws
    next => cases h
    next => cases h

/-- A converter that is closed by a control of the list fails in this way for
displayable values. -/
def Converters.Gives (cs : Converters) (l : List Control) (err : InterpretError) : Prop :=
  ∃ key values, Control.endConvert key ∈ l ∧ (∀ v ∈ values, Value.Displayable v) ∧
    cs.apply key values = .error err

theorem Converters.Gives.fromConverter {cs : Converters} (hcs : cs.Shows) {l : List Control}
    {err : InterpretError} (h : cs.Gives l err) : err.FromConverter := by
  obtain ⟨key, values, -, hvalues, h⟩ := h
  rcases cs.apply_cases key values with ⟨name, herr⟩ | ⟨name, f, args, inputs, hget, hsub, heq⟩
  · rw [herr] at h
    cases h
    trivial
  · rw [heq] at h
    split at h
    next => cases h
    next =>
      cases h
      trivial
    next herr => exact absurd herr (hcs hget fun v hv => hvalues v (hsub hv))

/-! ## Talks over nested marks -/

namespace Talk

/-- The keys of the converters that are open. -/
def keys (s : Talk) : List String := s.frames.map Prod.fst

/-- Every value has a text. -/
def Displayable (s : Talk) : Prop :=
  (∀ f ∈ s.frames, ∀ v ∈ f.2, v.Displayable) ∧ ∀ v ∈ s.said, v.Displayable

theorem keys_put (s : Talk) (vs : List Value) : (s.put vs).keys = s.keys := by
  obtain ⟨frames, said⟩ := s
  cases frames <;> rfl

theorem Displayable.put {s : Talk} (hs : s.Displayable) {vs : List Value}
    (hvs : ∀ v ∈ vs, v.Displayable) : (s.put vs).Displayable := by
  obtain ⟨frames, said⟩ := s
  cases frames with
  | nil => exact ⟨hs.1, fun v hv => (List.mem_append.mp hv).elim (hs.2 v) (hvs v)⟩
  | cons f outer =>
      refine ⟨fun f' hf' => ?_, hs.2⟩
      rcases List.mem_cons.mp hf' with rfl | hf'
      · exact fun v hv =>
          (List.mem_append.mp hv).elim (hs.1 f List.mem_cons_self v) (hvs v)
      · exact hs.1 f' (List.mem_cons_of_mem _ hf')

theorem displayable_ofLabel (label : String) :
    ∀ v ∈ (Said.ofLabel label).value?.toList, v.Displayable := by
  intro v hv
  rw [Option.mem_toList, Said.ofLabel] at hv
  split at hv
  · cases hv
  · split at hv
    · cases hv
    · cases hv
      exact displayable_text label

/-- What a talk may come to where the stack is `S` if it closes converters by the
controls of a list only. -/
def Goes (cs : Converters) (l : List Control) (S : List Opened)
    (r : Except InterpretError Talk) : Prop :=
  (∃ s, r = .ok s ∧ s.keys = S.filterMap Opened.key? ∧ s.Displayable)
    ∨ ∃ err, r = .error err ∧ cs.Gives l err

variable {cs : Converters} {l : List Control} {s : Talk} {S S' : List Opened} {label : String}

theorem goes_of_passes (hpasses : Control.Passes (Control.read? label))
    (hkeys : s.keys = S.filterMap Opened.key?) (hs : s.Displayable) :
    Goes cs l S (step cs s label) := by
  rw [step_passes hpasses]
  exact .inl ⟨_, rfl, by rw [keys_put, hkeys], hs.put (displayable_ofLabel label)⟩

theorem step_of_nest (hcs : cs.DisplaysOn l) {c : Control} (hc : c ∈ l)
    (hread : Control.read? label = some c) (hnest : c.nest S = some S')
    (hkeys : s.keys = S.filterMap Opened.key?) (hs : s.Displayable) :
    Goes cs l S' (step cs s label) := by
  rcases Control.nest_eq_some hnest with ⟨name, rfl, rfl⟩ | ⟨name, rfl, rfl⟩ | ⟨key, rfl, rfl⟩ |
    ⟨key, rfl, rfl⟩ | ⟨slot, rfl, rfl⟩
  · exact goes_of_passes (hread ▸ Control.passes_some rfl) hkeys hs
  · exact goes_of_passes (hread ▸ Control.passes_some rfl) hkeys hs
  · rw [step_begin hread]
    refine .inl ⟨_, rfl, congrArg (key :: ·) hkeys, fun f hf => ?_, hs.2⟩
    rcases List.mem_cons.mp hf with rfl | hf
    · exact fun v hv => (List.not_mem_nil hv).elim
    · exact hs.1 f hf
  · rw [step_end hread]
    obtain ⟨frames, said⟩ := s
    cases frames with
    | nil => cases hkeys
    | cons f outer =>
        -- the innermost frame belongs to the innermost open converter of the stack
        obtain ⟨opened, values⟩ := f
        obtain ⟨rfl, houter⟩ := List.cons.inj hkeys
        have hvalues : ∀ v ∈ values, v.Displayable := hs.1 _ List.mem_cons_self
        have hrest : Displayable ⟨outer, said⟩ :=
          ⟨fun f hf => hs.1 f (List.mem_cons_of_mem _ hf), hs.2⟩
        simp only [bne_self_eq_false, Bool.false_eq_true, if_false]
        cases happly : cs.apply opened values with
        | error err => exact .inr ⟨err, rfl, opened, values, hc, hvalues, happly⟩
        | ok vs =>
            exact .inl ⟨_, rfl, (keys_put _ _).trans houter,
              hrest.put (hcs hc hvalues happly)⟩
  · exact goes_of_passes (hread ▸ Control.passes_some rfl) hkeys hs

/-- A talk over nested marks fails only if a converter does. -/
theorem run_of_nestAll (hcs : cs.DisplaysOn l) :
    ∀ {labels : List String} {s : Talk} {S S' : List Opened},
      labels.filterMap Control.read? ⊆ l → nestAll S (labels.filterMap Control.read?) = some S' →
      s.keys = S.filterMap Opened.key? → s.Displayable → Goes cs l S' (run cs s labels)
  | [], s, S, S', _, hnest, hkeys, hs => by
      cases hnest
      exact .inl ⟨s, rfl, hkeys, hs⟩
  | label :: labels, s, S, S', hsub, hnest, hkeys, hs => by
      rw [filterMap_cons_toList] at hsub hnest
      have hgo : ∀ {T}, Goes cs l T (step cs s label) →
          nestAll T (labels.filterMap Control.read?) = some S' →
          Goes cs l S' (run cs s (label :: labels)) := by
        intro T hstep hrest
        rw [run_cons]
        rcases hstep with ⟨s', hs', hkeys', hdisplayable⟩ | ⟨err, herr, hfrom⟩
        · rw [hs']
          exact run_of_nestAll hcs (List.append_subset.mp hsub).2 hrest hkeys' hdisplayable
        · rw [herr]
          exact .inr ⟨err, rfl, hfrom⟩
      cases hread : Control.read? label with
      | none =>
          rw [hread] at hnest
          exact hgo (goes_of_passes (hread ▸ Control.passes_none) hkeys hs) hnest
      | some c =>
          rw [hread] at hsub hnest
          obtain ⟨T, hnext, hrest⟩ := Option.bind_eq_some_iff.mp ((nestAll_cons ..).symm.trans hnest)
          exact hgo (step_of_nest hcs (hsub List.mem_cons_self) hread hnext hkeys hs) hrest

end Talk

/-! ## The entities alone -/

/-- The names of the open entities after a mark that is no converter's. -/
def Control.nestNames : List String → Control → Option (List String)
  | names, .beginEntity name => some (name :: names)
  | opened :: names, .endEntity name => if opened = name then some names else none
  | names, .source _ => some names
  | _, _ => none

/-- Without the converters' marks the entities are still nested. -/
theorem nestNames_of_nestAll : ∀ {l : List Control} {S S' : List Opened},
    nestAll S l = some S' →
      (l.filter fun c => !c.isConverter).foldlM Control.nestNames (S.filterMap Opened.name?)
        = some (S'.filterMap Opened.name?)
  | [], S, S', h => by
      cases h
      rfl
  | c :: l, S, S', h => by
      rw [nestAll_cons] at h
      obtain ⟨T, hc, hrest⟩ := Option.bind_eq_some_iff.mp h
      have ih := nestNames_of_nestAll hrest
      rcases Control.nest_eq_some hc with ⟨name, rfl, rfl⟩ | ⟨name, rfl, rfl⟩ | ⟨key, rfl, rfl⟩ |
        ⟨key, rfl, rfl⟩ | ⟨slot, rfl, rfl⟩
      · exact ih
      · have hnames : Control.nestNames (name :: T.filterMap Opened.name?) (.endEntity name)
            = some (T.filterMap Opened.name?) := if_pos rfl
        rw [List.filter_cons_of_pos rfl, List.foldlM_cons]
        change Option.bind (Control.nestNames (name :: _) _) _ = _
        rw [hnames]
        exact ih
      · exact ih
      · exact ih
      · exact ih

end Utterance
