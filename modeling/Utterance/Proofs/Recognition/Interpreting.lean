import Utterance.Proofs.Recognition.Speech
import Utterance.Recognition.Interpret

/-!
# What a path with nested marks means

If the marks along a path are nested, the path has a meaning or a converter
fails on it (`interpret_of_nested`).  If all other labels do not even look like
marks, the tokens of the meaning are what the talk over the labels says.
-/

namespace Utterance

/-- The label is a mark, or it does not look like one. -/
def Label.Clean (label : String) : Prop :=
  Control.read? label = none → Label.isControl label = false

theorem Label.clean_text (c : Control) : Label.Clean c.text := fun h => by
  rw [Control.read?_text] at h
  cases h

/-- The marks among the labels of emissions. -/
def controlsOf (es : List Emission) : List Control :=
  es.filterMap fun e => Control.read? e.label

theorem Control.ofLabel_text (c : Control) : Said.ofLabel c.text = .control c.text := by
  have hne : c.text.isEmpty = false := by
    cases hempty : c.text.isEmpty with
    | false => rfl
    | true =>
        have hc := c.isControl_text
        rw [String.isEmpty_iff.mp hempty] at hc
        exact absurd hc (by decide)
  rw [Said.ofLabel, hne, if_neg Bool.false_ne_true, if_pos c.isControl_text]

/-- A part steers by the label of its emission. -/
theorem Emission.of_part_steering? {e : Emission} {label : String}
    (h : e.part.steering? = some label) : label = e.label ∧ Label.isControl e.label = true := by
  rw [Part.steering?, Emission.part, Said.ofLabel] at h
  cases hempty : e.label.isEmpty with
  | true =>
      rw [hempty] at h
      cases h
  | false =>
      cases hcontrol : Label.isControl e.label with
      | false =>
          rw [hempty, hcontrol] at h
          cases h
      | true =>
          rw [hempty, hcontrol] at h
          exact ⟨(Option.some.inj h).symm, rfl⟩

/-- The mark that an emission's part keeps. -/
theorem Emission.steering?_bind_read? (e : Emission) :
    e.steering?.bind Control.read?
      = (Control.read? e.label).filter fun c => !c.isConverter := by
  cases hread : Control.read? e.label with
  | none =>
      rw [steering?_of_passes (hread ▸ Control.passes_none)]
      cases hsteering : e.part.steering? with
      | none => rfl
      | some label =>
          rw [(of_part_steering? hsteering).1]
          exact hread
  | some c =>
      have htext := Control.eq_text_of_read? hread
      have hpart : e.part.steering?.bind Control.read? = some c := by
        rw [Part.steering?, Emission.part, htext, c.ofLabel_text]
        exact c.read?_text
      rw [steering?, hread]
      cases c with
      | beginConvert key => rfl
      | endConvert key => rfl
      | _ => exact hpart

/-- Converting keeps the marks that are no converter's. -/
theorem convertParts_controls {cs : Converters} {es : List Emission} {parts : List Part}
    (h : convertParts cs [] es = .ok parts) :
    parts.filterMap Part.control? = (controlsOf es).filter fun c => !c.isConverter := by
  have hsteering := congrArg (List.filterMap Control.read?) (convertParts_steering h)
  rw [List.filterMap_filterMap, List.filterMap_filterMap] at hsteering
  simp only [Emission.steering?_bind_read?] at hsteering
  rw [controlsOf, List.filter_filterMap]
  exact hsteering

/-- Where nothing else looks like a mark, parts say their values. -/
theorem flatMap_spoken {cs : Converters} {es : List Emission} {parts : List Part}
    (h : convertParts cs [] es = .ok parts) (hes : ∀ e ∈ es, Label.Clean e.label) :
    parts.flatMap Part.spoken = saidValues parts := by
  have hreadable : ∀ p ∈ parts, ∀ label, p.said = .control label →
      Control.read? label ≠ none := by
    intro p hp label hsaid hread
    have hsteering : p.steering? = some label := by rw [Part.steering?, hsaid]
    have hmem : label ∈ es.filterMap Emission.steering? :=
      convertParts_steering h ▸ List.mem_filterMap.mpr ⟨p, hp, hsteering⟩
    obtain ⟨e, he, hlabel⟩ := List.mem_filterMap.mp hmem
    have hpart : e.part.steering? = some label := by
      rw [Emission.steering?] at hlabel
      split at hlabel
      next => cases hlabel
      next => cases hlabel
      next => exact hlabel
    obtain ⟨rfl, hcontrol⟩ := Emission.of_part_steering? hpart
    rw [hes e he hread] at hcontrol
    cases hcontrol
  clear h
  induction parts with
  | nil => rfl
  | cons p parts ih =>
      rw [List.flatMap_cons, saidValues_cons, ih fun q hq => hreadable q (List.mem_cons_of_mem _ hq)]
      have hp : p.spoken = p.said.value?.toList := by
        rw [Part.spoken]
        cases hsaid : p.said with
        | control label =>
            have hne := hreadable p List.mem_cons_self label hsaid
            cases hread : Control.read? label with
            | none => exact absurd hread hne
            | some c => simp only [hread]; rfl
        | _ => rfl
      rw [hp]

theorem filterMap_closed? (l : List Control) :
    (l.filter fun c => !c.isConverter).filterMap Control.closed? = l.filterMap Control.closed? := by
  induction l with
  | nil => rfl
  | cons c l ih =>
      rw [filterMap_cons_toList, ← ih]
      cases c <;> rfl

/-- What the labels of emissions say, if no converter fails. -/
def talkOf (cs : Converters) (es : List Emission) : Except InterpretError (List Value) :=
  (Talk.run cs {} (es.map Emission.label)).bind Talk.result

theorem interpret_eq_ok {g : Graph} {cs : Converters} {p : Path} {es : List Emission}
    {parts : List Part} {speech : Speech} {text : String} (hes : g.emissions p = .ok es)
    (hparts : convertParts cs [] (es.filter Emission.counts) = .ok parts)
    (hspeech : Speech.ofParts parts = .ok speech) (htext : shownAll speech.tokens = .ok text)
    (cost : Option Float) :
    g.interpret cs p cost = .ok
      { intent := intentOf es
        confidence := confidence cost speech.rawTokens.length
        entities := speech.entities
        text
        rawText := spaced speech.rawTokens
        tokens := speech.tokens
        rawTokens := speech.rawTokens } := by
  unfold Graph.interpret
  rw [hes]
  simp only [bind, Except.bind, hparts, hspeech, htext]
  rfl

/-- Over nested marks a path has a meaning, or a converter fails. -/
theorem interpret_of_nested {g : Graph} {cs : Converters} {p : Path} {es : List Emission}
    (hcs : cs.DisplaysOn (controlsOf (es.filter Emission.counts))) (hes : g.emissions p = .ok es)
    (hnest : Nested (controlsOf (es.filter Emission.counts))) (cost : Option Float) :
    (∃ r values, g.interpret cs p cost = .ok r ∧
        talkOf cs (es.filter Emission.counts) = .ok values ∧ r.intent = intentOf es ∧
        ((∀ e ∈ es.filter Emission.counts, Label.Clean e.label) →
          r.tokens = values.filter Value.isSpoken) ∧
        r.entities.map Entity.name
          = (controlsOf (es.filter Emission.counts)).filterMap Control.closed?)
      ∨ ∃ err, g.interpret cs p cost = .error err ∧
        talkOf cs (es.filter Emission.counts) = .error err ∧
        cs.Gives (controlsOf (es.filter Emission.counts)) err := by
  have hcontrols : ((es.filter Emission.counts).map Emission.label).filterMap Control.read?
      = controlsOf (es.filter Emission.counts) := List.filterMap_map
  have hgoes := Talk.run_of_nestAll hcs (s := {}) (fun _ hc => hcontrols ▸ hc)
    (hcontrols.symm ▸ hnest) rfl
    ⟨fun f hf => (List.not_mem_nil hf).elim, fun v hv => (List.not_mem_nil hv).elim⟩
  have hvalues := convertParts_values cs (es.filter Emission.counts) [] []
  change (convertParts cs [] _).map saidValues = talkOf cs _ at hvalues
  rcases hgoes with ⟨s, hs, hkeys, hdisplayable⟩ | ⟨err, herr, hgives⟩
  -- no converter fails and none is left open: the parts make a speech
  · have hframes : s.frames = [] := List.map_eq_nil_iff.mp hkeys
    have hresult : talkOf cs (es.filter Emission.counts) = .ok s.said := by
      rw [talkOf, hs]
      change s.result = _
      rw [Talk.result, hframes]
    rw [hresult] at hvalues ⊢
    obtain ⟨parts, hparts, hsaid⟩ := Except.map_eq_ok.mp hvalues
    have hcontrols := convertParts_controls hparts
    have hnames := nestNames_of_nestAll hnest
    rw [← hcontrols] at hnames
    obtain ⟨speech, hspeech, htokens, hentities⟩ :=
      Speech.ofParts_of_nestNames hnames (hsaid ▸ hdisplayable.2)
    obtain ⟨text, htext⟩ := exists_shownAll (l := speech.tokens) fun v hv => by
      rw [htokens] at hv
      exact displayable_of_mem_spoken (hsaid ▸ hdisplayable.2) v (List.mem_filter.mp hv).1
    refine .inl ⟨_, s.said, interpret_eq_ok hes hparts hspeech htext cost, rfl, rfl, ?_, ?_⟩
    · intro hclean
      rw [← hsaid, ← flatMap_spoken hparts hclean]
      exact htokens
    · rw [← filterMap_closed?, ← hcontrols]
      exact hentities
  · have hresult : talkOf cs (es.filter Emission.counts) = .error err := by
      rw [talkOf, herr]
      rfl
    refine .inr ⟨err, ?_, hresult, hgives⟩
    rw [hresult] at hvalues
    cases hparts : convertParts cs [] (es.filter Emission.counts) with
    | ok parts =>
        rw [hparts] at hvalues
        cases hvalues
    | error err' =>
        rw [hparts] at hvalues
        cases hvalues
        unfold Graph.interpret
        rw [hes]
        simp only [bind, Except.bind, hparts]

end Utterance
