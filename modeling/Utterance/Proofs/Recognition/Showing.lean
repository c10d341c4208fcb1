import Utterance.Proofs.Recognition.Builtin
import Utterance.Proofs.Recognition.Protocol
import Utterance.Recognize

/-!
# Where a value without a text is shown

Interpreting shows values in three places: in converters, where a value is taken
down, and where an entity is closed.  If all values on the way are of a kind that
has a text (`Value.Kind`), none of the three fails for the want of one, whatever
the marks along the path are (`avoids_interpret`).  With the built-in converters
this is so on every path that does not close both `object` and `datetime`
(`recognize_ne_undisplayable`).
-/

namespace Utterance

/-! ## Converters -/

/-- The name of the converter that the mark closes. -/
def Control.converter? : Control → Option String
  | .endConvert key => some ((key.pieces ',').headD "")
  | _ => none

theorem Converters.avoids_apply {P : Value → Prop} {cs : Converters} {key : String}
    (hcs : ∀ {f values}, cs.get? ((key.pieces ',').headD "") = some f → (∀ v ∈ values, P v) →
      ∀ args, Avoids .undisplayable (f values args) fun vs => ∀ v ∈ vs, P v)
    {values : List Value} (hvalues : ∀ v ∈ values, P v) :
    Avoids .undisplayable (cs.apply key values) fun vs => ∀ v ∈ vs, P v := by
  unfold apply
  split
  next =>
    intro h
    cases h
  next f hget =>
    have hinputs : ∀ v ∈ values.filter (fun v => v.asText? != some ""), P v := fun v hv =>
      hvalues v (List.mem_filter.mp hv).1
    have hf := hcs hget hinputs (key.pieces ',').tail
    split
    next vs hvs =>
      rw [hvs] at hf
      exact hf
    next =>
      intro h
      cases h
    next herr =>
      rw [herr] at hf
      exact absurd rfl hf

/-- The converter under the key keeps to the kind of values and shows no value
without a text. -/
def Converters.Keeps (cs : Converters) (P : Value → Prop) (key : String) : Prop :=
  ∀ {values}, (∀ v ∈ values, P v) →
    Avoids .undisplayable (cs.apply key values) fun vs => ∀ v ∈ vs, P v

namespace Talk

variable {P : Value → Prop} {cs : Converters} {s : Talk}

/-- All values that have been said are of the kind. -/
def All (P : Value → Prop) (s : Talk) : Prop :=
  (∀ f ∈ s.frames, ∀ v ∈ f.2, P v) ∧ ∀ v ∈ s.said, P v

theorem All.put (hs : s.All P) {vs : List Value} (hvs : ∀ v ∈ vs, P v) : (s.put vs).All P := by
  obtain ⟨frames, said⟩ := s
  cases frames with
  | nil => exact ⟨hs.1, List.forall_mem_append.mpr ⟨hs.2, hvs⟩⟩
  | cons f outer =>
      obtain ⟨hframe, houter⟩ := List.forall_mem_cons.mp hs.1
      exact ⟨List.forall_mem_cons.mpr ⟨List.forall_mem_append.mpr ⟨hframe, hvs⟩, houter⟩, hs.2⟩

theorem avoids_step (hP : Value.Kind P) {label : String}
    (hcs : ∀ key, Control.read? label = some (.endConvert key) → cs.Keeps P key) (hs : s.All P) :
    Avoids .undisplayable (step cs s label) (All P) := by
  rcases Control.converts_or_passes (Control.read? label) with ⟨key, hread⟩ | ⟨key, hread⟩ | hpasses
  · rw [step_begin hread]
    exact ⟨List.forall_mem_cons.mpr ⟨fun _ hv => (List.not_mem_nil hv).elim, hs.1⟩, hs.2⟩
  · rw [step_end hread]
    obtain ⟨frames, said⟩ := s
    cases frames with
    | nil =>
        intro h
        cases h
    | cons f outer =>
        obtain ⟨opened, values⟩ := f
        obtain ⟨hvalues, houter⟩ := List.forall_mem_cons.mp hs.1
        simp only
        split
        next =>
          intro h
          cases h
        next heq =>
          have heq : opened = key := by simpa using heq
          have happly := hcs key hread hvalues
          rw [heq]
          cases hresult : cs.apply key values with
          | error err =>
              rw [hresult] at happly
              exact happly
          | ok vs =>
              rw [hresult] at happly
              have hrest : All P ⟨outer, said⟩ := ⟨houter, hs.2⟩
              exact hrest.put happly
  · rw [step_passes hpasses]
    refine hs.put fun v hv => ?_
    rw [Said.ofLabel] at hv
    split at hv
    · exact (List.not_mem_nil hv).elim
    · split at hv
      · exact (List.not_mem_nil hv).elim
      · rw [List.mem_singleton.mp hv]
        exact hP.text label

/-- Converting shows no value without a text, and what is said at the end is of the
kind. -/
theorem avoids_convertParts (hP : Value.Kind P) {es : List Emission}
    (hcs : ∀ key, .endConvert key ∈ controlsOf es → cs.Keeps P key) :
    Avoids .undisplayable (convertParts cs [] es) fun parts => ∀ v ∈ saidValues parts, P v := by
  have hrun : Avoids .undisplayable (run cs {} (es.map Emission.label)) (All P) := by
    refine Avoids.foldlM (fun s label hlabel hs => avoids_step hP (fun key hread => ?_) hs)
      ⟨fun _ hf => (List.not_mem_nil hf).elim, fun _ hv => (List.not_mem_nil hv).elim⟩
    obtain ⟨e, he, rfl⟩ := List.mem_map.mp hlabel
    exact hcs key (List.mem_filterMap.mpr ⟨e, he, hread⟩)
  have hresult : Avoids .undisplayable ((run cs {} (es.map Emission.label)).bind result)
      fun values => ∀ v ∈ values, P v := by
    refine hrun.bind fun s hs => ?_
    unfold result
    split
    next => exact hs.2
    next =>
      intro h
      cases h
  have hvalues := convertParts_values cs es [] []
  change (convertParts cs [] es).map saidValues = (run cs {} (es.map Emission.label)).bind result
    at hvalues
  rw [← hvalues] at hresult
  cases hparts : convertParts cs [] es with
  | error err =>
      rw [hparts] at hresult
      exact hresult
  | ok parts =>
      rw [hparts] at hresult
      exact hresult

end Talk

/-! ## Speeches -/

namespace Speech

variable {s t : Speech}

/-- Whatever is taken down can be shown. -/
def Shows (s : Speech) : Prop := (∃ names, s.Well names) ∧ ∀ v ∈ s.tokens, v.Displayable

theorem Shows.of_becomes (hs : s.Shows) {names closed : List String} (ht : t.Well names)
    {values : List Value} (h : s.Becomes t values closed) (hvalues : ∀ v ∈ values, v.Displayable) :
    t.Shows := by
  refine ⟨⟨names, ht⟩, ?_⟩
  rw [h.tokens_eq]
  exact List.forall_mem_append.mpr ⟨hs.2, fun v hv => hvalues v (List.mem_filter.mp hv).1⟩

theorem Shows.say (hs : s.Shows) {v : Value} (hv : v.Displayable) :
    Avoids .undisplayable (s.say v) Shows := by
  obtain ⟨⟨names, hwell⟩, -⟩ := id hs
  obtain ⟨t, ht, htwell, hbecomes⟩ := say_spec hwell hv
  rw [ht]
  exact hs.of_becomes htwell hbecomes fun w hw => List.mem_singleton.mp hw ▸ hv

theorem Shows.closeEntity (hs : s.Shows) (label name : String) :
    Avoids .undisplayable (s.closeEntity label name) Shows := by
  obtain ⟨⟨names, hwell⟩, -⟩ := id hs
  cases hopened : s.opened with
  | nil =>
      rw [Speech.closeEntity, hopened]
      intro h
      cases h
  | cons e outer =>
      by_cases hname : e.name = name
      · have hnames : names = name :: outer.map Entity.name := by
          rw [← hwell.names_eq, hopened, List.map_cons, hname]
        obtain ⟨t, ht, htwell, hbecomes⟩ := closeEntity_spec (hnames ▸ hwell) label
        rw [ht]
        exact hs.of_becomes htwell hbecomes fun _ hv => (List.not_mem_nil hv).elim
      · rw [Speech.closeEntity, hopened]
        simp only [if_pos (bne_iff_ne.mpr hname)]
        intro h
        cases h

theorem Shows.add (hs : s.Shows) {p : Part} (hp : ∀ v ∈ p.said.value?, v.Displayable) :
    Avoids .undisplayable (s.add p) Shows := by
  obtain ⟨⟨names, hwell⟩, -⟩ := id hs
  obtain ⟨hheard, hbecomes⟩ := hear_spec hwell p.heard
  have hnone : ∀ v ∈ ([] : List Value), v.Displayable := fun _ hv => (List.not_mem_nil hv).elim
  have hshows : (s.hear p.heard).Shows := hs.of_becomes hheard hbecomes hnone
  unfold Speech.add
  cases hsaid : p.said with
  | nothing => exact hshows
  | value v => exact hshows.say (hp v (by rw [hsaid]; rfl))
  | control label =>
      simp only
      split
      next name _ =>
        obtain ⟨hopen, hbecomes⟩ := openEntity_spec hheard name
        exact hshows.of_becomes hopen hbecomes hnone
      next name _ => exact hshows.closeEntity label name
      next slot _ =>
        exact hshows.of_becomes (hheard.mapInnermost (fun _ => rfl) fun _ h => h)
          (mapInnermost_becomes _ _) hnone
      next => exact hshows.say (displayable_text label)

theorem avoids_ofParts {parts : List Part} (hparts : ∀ v ∈ saidValues parts, v.Displayable) :
    Avoids .undisplayable (ofParts parts) Shows := by
  have hempty : Shows {} :=
    ⟨⟨[], rfl, fun _ he => (List.not_mem_nil he).elim⟩, fun _ hv => (List.not_mem_nil hv).elim⟩
  have hfold : Avoids .undisplayable (parts.foldlM add {}) Shows :=
    Avoids.foldlM (fun _ p hp hs => hs.add fun v hv =>
      hparts v (List.mem_filterMap.mpr ⟨p, hp, hv⟩)) hempty
  refine hfold.bind fun s hs => ?_
  split
  next => exact hs
  next =>
    intro h
    cases h

/-- Nor is there anything among the tokens that has no text. -/
theorem avoids_take {α : Type} {parts : List Part} (hparts : ∀ v ∈ saidValues parts, v.Displayable)
    (f : Speech → String → α) :
    Avoids .undisplayable ((ofParts parts).bind fun s =>
      (shownAll s.tokens).bind fun text => .ok (f s text)) fun _ => True := by
  refine (avoids_ofParts hparts).bind fun s hs => ?_
  obtain ⟨text, htext⟩ := exists_shownAll hs.2
  rw [htext]
  trivial

end Speech

/-! ## Paths -/

namespace Graph

variable {g : Graph} {p : Path}

theorem avoids_emissions : Avoids .undisplayable (g.emissions p) fun es =>
    ∀ e ∈ es, e.label ∈ g.labels p := by
  refine Avoids.mapM fun s hs => ?_
  unfold emission
  split
  next =>
    intro h
    cases h
  next e he =>
    simp only
    split
    next =>
      intro h
      cases h
    next label hlabel =>
      have hstep : g.label? s = some label := by
        rw [label?, he]
        exact hlabel
      exact List.mem_map.mpr ⟨s, hs, by rw [hstep]; rfl⟩

/-- A path on which the converters keep to a kind of values shows no value without a
text. -/
theorem avoids_interpret {P : Value → Prop} (hP : Value.Kind P) {cs : Converters}
    (hcs : ∀ key, .endConvert key ∈ g.controls p → cs.Keeps P key) (cost : Option Float) :
    Avoids .undisplayable (g.interpret cs p cost) fun _ => True := by
  refine avoids_emissions.bind fun es hes => ?_
  have hcontrols : ∀ key, .endConvert key ∈ controlsOf (es.filter Emission.counts) →
      cs.Keeps P key := fun key hkey => by
    obtain ⟨e, he, hread⟩ := List.mem_filterMap.mp hkey
    exact hcs key (List.mem_filterMap.mpr ⟨_, hes e (List.mem_filter.mp he).1, hread⟩)
  refine (Talk.avoids_convertParts hP hcontrols).bind fun parts hparts => ?_
  exact Speech.avoids_take (fun v hv => hP.displayable (hparts v hv)) _

/-- A converter of the name is closed on the path. -/
def Closes (g : Graph) (p : Path) (name : String) : Prop :=
  name ∈ (g.controls p).filterMap Control.converter?

instance (g : Graph) (p : Path) (name : String) : Decidable (g.Closes p name) :=
  inferInstanceAs (Decidable (name ∈ (g.controls p).filterMap Control.converter?))

theorem closes_of_mem {key : String} (hkey : .endConvert key ∈ g.controls p) :
    g.Closes p ((key.pieces ',').headD "") := List.mem_filterMap.mpr ⟨_, hkey, rfl⟩

theorem interpret_ne_undisplayable {x : Extractor}
    (hp : ¬ (g.Closes p "object" ∧ g.Closes p "datetime")) (cost : Option Float) :
    g.interpret (Converters.builtin x) p cost ≠ .error .undisplayable := by
  by_cases hobject : g.Closes p "object"
  -- no date-time is found, so everything has data
  · refine (avoids_interpret Value.kind_exports (fun key hkey values hvalues => ?_) cost).ne
    refine Converters.avoids_apply (fun hget hvalues args =>
      builtin_avoids Value.kind_exports hget ?_ ?_ hvalues args) hvalues
    · intro _ v hv
      exact Value.exports_object.mpr fun m hm => List.mem_singleton.mp hm ▸ hv
    · exact fun hname => absurd ⟨hobject, hname ▸ closes_of_mem hkey⟩ hp
  -- no object is made
  · refine (avoids_interpret Value.kind_isPlain (fun key hkey values hvalues => ?_) cost).ne
    refine Converters.avoids_apply (fun hget hvalues args =>
      builtin_avoids Value.kind_isPlain hget ?_ ?_ hvalues args) hvalues
    · exact fun hname => absurd (hname ▸ closes_of_mem hkey) hobject
    · intro _ s t _ members h
      cases h

/-! ## Recognizing -/

/-- An error is one of a path. -/
theorem exists_of_interpretAll_error {cs : Converters} {err : InterpretError} :
    ∀ {l : List (Path × Option Float)}, g.interpretAll cs l = .error err →
      ∃ q ∈ l, g.interpret cs q.1 q.2 = .error err
  | [], h => by cases h
  | (p, cost) :: rest, h => by
      rw [interpretAll] at h
      split at h
      next r _ =>
        cases hrest : g.interpretAll cs rest with
        | error err' =>
            rw [hrest] at h
            cases h
            obtain ⟨q, hq, herr⟩ := exists_of_interpretAll_error hrest
            exact ⟨q, List.mem_cons_of_mem _ hq, herr⟩
        | ok later =>
            rw [hrest] at h
            cases h
      next =>
        obtain ⟨q, hq, herr⟩ := exists_of_interpretAll_error h
        exact ⟨q, List.mem_cons_of_mem _ hq, herr⟩
      next herr =>
        cases h
        exact ⟨(p, cost), List.mem_cons_self, herr⟩

/-- Recognizing shows no value without a text, if no path that is considered closes
both `object` and `datetime`. -/
theorem recognize_ne_undisplayable {o : RecognizeOptions} {x : Extractor} {tokens : List String}
    (h : ∀ q ∈ g.candidates o tokens, ¬ (g.Closes q.1 "object" ∧ g.Closes q.1 "datetime")) :
    g.recognize o (Converters.builtin x) tokens ≠ .error .undisplayable := by
  intro herr
  obtain ⟨q, hq, herr⟩ := exists_of_interpretAll_error herr
  exact interpret_ne_undisplayable (h q hq) q.2 herr

end Graph

end Utterance
