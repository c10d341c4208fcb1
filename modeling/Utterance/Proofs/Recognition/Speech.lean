import Utterance.Proofs.Recognition.Nesting
import Utterance.Recognition.Speech

/-!
# What a speech comes to

If the entities of some parts are nested and all their values have a text, then
the parts make a speech (`Speech.ofParts_of_nestNames`): its tokens are the
values whose text is not empty, and its entities have the names of the marks
that close them, in this order.  A label that steers but is no mark is said like
a text.
-/

namespace Utterance

/-- The text of the value is not empty. -/
def Value.isSpoken (v : Value) : Bool := v.display? != some ""

/-- The name of the entity that a mark closes. -/
def Control.closed? : Control → Option String
  | .endEntity name => some name
  | _ => none

/-- The mark at a part. -/
def Part.control? (p : Part) : Option Control := p.steering?.bind Control.read?

/-- What a part says, with the label that steers if it is no mark. -/
def Part.spoken (p : Part) : List Value :=
  match p.said with
  | .nothing => []
  | .value v => [v]
  | .control label => if (Control.read? label).isNone then [.text label] else []

theorem displayable_of_mem_spoken {parts : List Part}
    (hvalues : ∀ v ∈ saidValues parts, v.Displayable) :
    ∀ v ∈ parts.flatMap Part.spoken, v.Displayable := by
  intro v hv
  obtain ⟨p, hp, hv⟩ := List.mem_flatMap.mp hv
  rw [Part.spoken] at hv
  split at hv
  next => exact (List.not_mem_nil hv).elim
  next w hsaid =>
    obtain rfl := List.mem_singleton.mp hv
    exact hvalues v (List.mem_filterMap.mpr ⟨p, hp, by rw [hsaid]; rfl⟩)
  next label _ =>
    split at hv
    · exact List.mem_singleton.mp hv ▸ displayable_text label
    · exact (List.not_mem_nil hv).elim

/-! ## Texts -/

theorem exists_shown {v : Value} (hv : v.Displayable) :
    ∃ text, shown v = .ok text ∧ v.display? = some text := by
  obtain ⟨text, htext⟩ := Option.isSome_iff_exists.mp hv
  exact ⟨text, by rw [shown, htext], htext⟩

theorem exists_shownAll {l : List Value} (hl : ∀ v ∈ l, v.Displayable) :
    ∃ text, shownAll l = .ok text := by
  have htexts : ∃ texts, l.mapM shown = .ok texts := by
    induction l with
    | nil => exact ⟨[], rfl⟩
    | cons v l ih =>
        obtain ⟨text, htext, -⟩ := exists_shown (hl v List.mem_cons_self)
        obtain ⟨texts, htexts⟩ := ih fun w hw => hl w (List.mem_cons_of_mem _ hw)
        refine ⟨text :: texts, ?_⟩
        rw [List.mapM_cons, htext, htexts]
        rfl
  obtain ⟨texts, htexts⟩ := htexts
  exact ⟨spaced texts, by rw [shownAll, htexts]; rfl⟩

namespace Speech

/-! ## One part -/

/-- The open entities have these names, and what they hold can be shown. -/
structure Well (s : Speech) (names : List String) : Prop where
  names_eq : s.opened.map Entity.name = names
  displayable : ∀ e ∈ s.opened, ∀ v ∈ e.tokens, v.Displayable

/-- From `s` a speech comes to `t` by saying values and closing entities. -/
structure Becomes (s t : Speech) (values : List Value) (closed : List String) : Prop where
  tokens_eq : t.tokens = s.tokens ++ values.filter Value.isSpoken
  entities_eq : t.entities.map Entity.name = s.entities.map Entity.name ++ closed

theorem Becomes.of_eq {s t : Speech} (htokens : t.tokens = s.tokens)
    (hentities : t.entities = s.entities) : s.Becomes t [] [] :=
  ⟨by rw [htokens, List.filter_nil, List.append_nil], by rw [hentities, List.append_nil]⟩

theorem Becomes.trans {s t u : Speech} {vs ws : List Value} {l m : List String}
    (h : s.Becomes t vs l) (h' : t.Becomes u ws m) : s.Becomes u (vs ++ ws) (l ++ m) where
  tokens_eq := by rw [h'.tokens_eq, h.tokens_eq, List.filter_append, List.append_assoc]
  entities_eq := by rw [h'.entities_eq, h.entities_eq, List.append_assoc]

theorem Well.mapInnermost {s : Speech} {names : List String} (hs : s.Well names)
    {f : Entity → Entity} (hname : ∀ e, (f e).name = e.name)
    (htokens : ∀ e, (∀ v ∈ e.tokens, v.Displayable) → ∀ v ∈ (f e).tokens, v.Displayable) :
    (s.mapInnermost f).Well names := by
  unfold Speech.mapInnermost
  split
  next => exact hs
  next e outer hopened =>
    have hnames := hs.names_eq
    rw [hopened] at hnames
    refine ⟨by rw [← hnames, List.map_cons, List.map_cons, hname], fun e' he' => ?_⟩
    rcases List.mem_cons.mp he' with rfl | he'
    · exact htokens e (hs.displayable e (hopened ▸ List.mem_cons_self))
    · exact hs.displayable e' (hopened ▸ List.mem_cons_of_mem _ he')

theorem mapInnermost_becomes (s : Speech) (f : Entity → Entity) :
    s.Becomes (s.mapInnermost f) [] [] := by
  unfold Speech.mapInnermost
  split <;> exact Becomes.of_eq rfl rfl

theorem hear_spec {s : Speech} {names : List String} (hs : s.Well names) (words : List String) :
    (s.hear words).Well names ∧ s.Becomes (s.hear words) [] [] := by
  have hwell := hs.mapInnermost (f := fun e => { e with rawTokens := e.rawTokens ++ words })
    (fun _ => rfl) fun _ h => h
  have hbecomes := s.mapInnermost_becomes fun e => { e with rawTokens := e.rawTokens ++ words }
  exact ⟨⟨hwell.names_eq, hwell.displayable⟩, ⟨hbecomes.tokens_eq, hbecomes.entities_eq⟩⟩

/-- Takes down a value with its text. -/
def note (s : Speech) (v : Value) (text : String) : Speech :=
  let t := s.mapInnermost fun e => { e with tokens := e.tokens ++ [v] }
  { t with tokens := t.tokens ++ [v], offset := t.offset + room text }

theorem say_eq {v : Value} {text : String} (h : shown v = .ok text) (s : Speech) :
    s.say v = .ok (if text.isEmpty then s else s.note v text) := by
  unfold Speech.say
  rw [h]
  cases hempty : text.isEmpty with
  | true => simp only [bind, Except.bind, hempty, if_true]; rfl
  | false => simp only [bind, Except.bind, hempty]; rfl

theorem note_spec {s : Speech} {names : List String} (hs : s.Well names) {v : Value}
    (hv : v.Displayable) (hspoken : v.isSpoken = true) (text : String) :
    (s.note v text).Well names ∧ s.Becomes (s.note v text) [v] [] := by
  have hwell := hs.mapInnermost (f := fun e => { e with tokens := e.tokens ++ [v] })
    (fun _ => rfl) fun e he w hw => by
      rcases List.mem_append.mp hw with hw | hw
      · exact he w hw
      · exact List.mem_singleton.mp hw ▸ hv
  have hbecomes := s.mapInnermost_becomes fun e => { e with tokens := e.tokens ++ [v] }
  have htokens := hbecomes.tokens_eq
  rw [List.filter_nil, List.append_nil] at htokens
  refine ⟨⟨hwell.names_eq, hwell.displayable⟩, ?_, hbecomes.entities_eq⟩
  rw [List.filter_singleton, hspoken]
  exact congrArg (· ++ [v]) htokens

theorem say_spec {s : Speech} {names : List String} (hs : s.Well names) {v : Value}
    (hv : v.Displayable) :
    ∃ t, s.say v = .ok t ∧ t.Well names ∧ s.Becomes t [v] [] := by
  obtain ⟨text, hshown, hdisplay⟩ := exists_shown hv
  refine ⟨_, say_eq hshown s, ?_⟩
  by_cases hempty : text = ""
  · have hspoken : v.isSpoken = false := by rw [Value.isSpoken, hdisplay, hempty]; rfl
    rw [hempty, if_pos (by rfl)]
    refine ⟨hs, ?_, (List.append_nil _).symm⟩
    rw [List.filter_singleton, hspoken]
    exact (List.append_nil _).symm
  · have hspoken : v.isSpoken = true := by
      rw [Value.isSpoken, hdisplay, bne_iff_ne]
      exact fun h => hempty (Option.some.inj h)
    rw [if_neg (by simpa using hempty)]
    exact note_spec hs hv hspoken text

theorem openEntity_spec {s : Speech} {names : List String} (hs : s.Well names) (name : String) :
    (s.openEntity name).Well (name :: names) ∧ s.Becomes (s.openEntity name) [] [] := by
  refine ⟨⟨congrArg (name :: ·) hs.names_eq, fun e he => ?_⟩, Becomes.of_eq rfl rfl⟩
  rcases List.mem_cons.mp he with rfl | he
  · exact fun v hv => (List.not_mem_nil hv).elim
  · exact hs.displayable e he

theorem exists_finish {s : Speech} {e : Entity} (he : ∀ v ∈ e.tokens, v.Displayable) :
    ∃ e', s.finish e = .ok e' ∧ e'.name = e.name := by
  obtain ⟨text, htext⟩ := exists_shownAll he
  unfold Speech.finish
  split
  next v _ => exact ⟨_, rfl, rfl⟩
  next =>
    rw [htext]
    exact ⟨_, rfl, rfl⟩

theorem closeEntity_spec {s : Speech} {name : String} {names : List String}
    (hs : s.Well (name :: names)) (label : String) :
    ∃ t, s.closeEntity label name = .ok t ∧ t.Well names ∧ s.Becomes t [] [name] := by
  obtain ⟨opened, entities, tokens, rawTokens, offset, rawOffset⟩ := s
  cases opened with
  | nil => cases hs.names_eq
  | cons e outer =>
      obtain ⟨rfl, houter⟩ := List.cons.inj hs.names_eq
      obtain ⟨e', he', hname⟩ := exists_finish
        (s := ⟨e :: outer, entities, tokens, rawTokens, offset, rawOffset⟩)
        (hs.displayable e List.mem_cons_self)
      refine ⟨⟨outer, entities ++ [e'], tokens, rawTokens, offset, rawOffset⟩, ?_,
        ⟨houter, fun e he => hs.displayable e (List.mem_cons_of_mem _ he)⟩,
        (List.append_nil _).symm, ?_⟩
      · unfold Speech.closeEntity
        simp only [bne_self_eq_false, Bool.false_eq_true, if_false, he']
        rfl
      · rw [← hname]
        exact List.map_append

/-! ## All parts -/

/-- A part without a mark is said. -/
theorem add_spec {s : Speech} {names : List String} (hs : s.Well names) {p : Part}
    (hp : p.control? = none) (hvalues : ∀ v ∈ p.said.value?, v.Displayable) :
    ∃ t, s.add p = .ok t ∧ t.Well names ∧ s.Becomes t p.spoken [] := by
  obtain ⟨hwell, hbecomes⟩ := hear_spec hs p.heard
  obtain ⟨raw, said, matched⟩ := p
  cases said with
  | nothing => exact ⟨_, rfl, hwell, hbecomes⟩
  | value v =>
      obtain ⟨t, ht, hwell', hbecomes'⟩ := say_spec hwell (hvalues v rfl)
      exact ⟨t, ht, hwell', hbecomes.trans hbecomes'⟩
  | control label =>
      have hread : Control.read? label = none := hp
      obtain ⟨t, ht, hwell', hbecomes'⟩ := say_spec hwell (displayable_text label)
      unfold Speech.add Part.spoken
      simp only [hread]
      exact ⟨t, ht, hwell', hbecomes.trans hbecomes'⟩

/-- What a mark that is no converter's does to the names of the open entities,
if it may stand there. -/
theorem nestNames_eq_some {c : Control} {names names' : List String}
    (h : c.nestNames names = some names') :
    (∃ name, c = .beginEntity name ∧ names' = name :: names)
      ∨ (∃ name, c = .endEntity name ∧ names = name :: names')
      ∨ (∃ slot, c = .source slot ∧ names' = names) := by
  unfold Control.nestNames at h
  split at h
  next name => exact .inl ⟨name, rfl, (Option.some.inj h).symm⟩
  next opened names name =>
    split at h
    next heq => exact .inr (.inl ⟨name, rfl, by rw [heq, Option.some.inj h]⟩)
    next => cases h
  next slot => exact .inr (.inr ⟨slot, rfl, (Option.some.inj h).symm⟩)
  next => cases h

/-- A mark opens or closes an entity, or names a source. -/
theorem add_control_spec {s : Speech} {names names' : List String} (hs : s.Well names) {p : Part}
    {c : Control} (hp : p.control? = some c) (hc : c.nestNames names = some names') :
    ∃ t, s.add p = .ok t ∧ t.Well names' ∧ s.Becomes t p.spoken c.closed?.toList := by
  obtain ⟨hwell, hbecomes⟩ := hear_spec hs p.heard
  obtain ⟨raw, said, matched⟩ := p
  cases said with
  | nothing => cases hp
  | value v => cases hp
  | control label =>
      have hread : Control.read? label = some c := hp
      unfold Speech.add Part.spoken
      simp only [hread]
      rcases nestNames_eq_some hc with ⟨name, rfl, rfl⟩ | ⟨name, rfl, rfl⟩ | ⟨slot, rfl, rfl⟩
      · obtain ⟨hopen, hbecomes'⟩ := openEntity_spec hwell name
        exact ⟨_, rfl, hopen, hbecomes.trans hbecomes'⟩
      · obtain ⟨t, ht, hclosed, hbecomes'⟩ := closeEntity_spec hwell label
        exact ⟨t, ht, hclosed, hbecomes.trans hbecomes'⟩
      · exact ⟨_, rfl, hwell.mapInnermost (fun _ => rfl) fun _ h => h,
          hbecomes.trans (mapInnermost_becomes _ _)⟩

theorem foldlM_add_spec : ∀ {parts : List Part} {s : Speech} {names names' : List String},
    s.Well names →
      (parts.filterMap Part.control?).foldlM Control.nestNames names = some names' →
      (∀ v ∈ saidValues parts, v.Displayable) →
      ∃ t, parts.foldlM Speech.add s = .ok t ∧ t.Well names' ∧
        s.Becomes t (parts.flatMap Part.spoken)
          ((parts.filterMap Part.control?).filterMap Control.closed?)
  | [], s, names, names', hs, hl, _ => by
      cases hl
      exact ⟨s, rfl, hs, Becomes.of_eq rfl rfl⟩
  | p :: parts, s, names, names', hs, hl, hvalues => by
      rw [saidValues_cons] at hvalues
      rw [List.foldlM_cons, List.flatMap_cons, filterMap_cons_toList]
      rw [filterMap_cons_toList] at hl
      cases hp : p.control? with
      | none =>
          rw [hp] at hl
          obtain ⟨t, ht, hwell, hbecomes⟩ := add_spec hs hp fun v hv =>
            hvalues v (List.mem_append_left _ (Option.mem_toList.mpr hv))
          obtain ⟨u, hu, hwell', hbecomes'⟩ := foldlM_add_spec hwell hl fun v hv =>
            hvalues v (List.mem_append_right _ hv)
          exact ⟨u, by rw [ht]; exact hu, hwell', hbecomes.trans hbecomes'⟩
      | some c =>
          rw [hp] at hl
          obtain ⟨names₁, hc, hrest⟩ := Option.bind_eq_some_iff.mp hl
          obtain ⟨t, ht, hwell, hbecomes⟩ := add_control_spec hs hp hc
          obtain ⟨u, hu, hwell', hbecomes'⟩ := foldlM_add_spec hwell hrest fun v hv =>
            hvalues v (List.mem_append_right _ hv)
          refine ⟨u, by rw [ht]; exact hu, hwell', ?_⟩
          rw [List.filterMap_append]
          have hclosed := hbecomes.trans hbecomes'
          cases c <;> exact hclosed

/-- Parts whose entities are nested and whose values can be shown make a
speech. -/
theorem ofParts_of_nestNames {parts : List Part}
    (hnest : (parts.filterMap Part.control?).foldlM Control.nestNames [] = some [])
    (hvalues : ∀ v ∈ saidValues parts, v.Displayable) :
    ∃ s, Speech.ofParts parts = .ok s ∧
      s.tokens = (parts.flatMap Part.spoken).filter Value.isSpoken ∧
      s.entities.map Entity.name
        = (parts.filterMap Part.control?).filterMap Control.closed? := by
  have hempty : Well {} [] := ⟨rfl, fun e he => (List.not_mem_nil he).elim⟩
  obtain ⟨s, hs, hwell, hbecomes⟩ := foldlM_add_spec hempty hnest hvalues
  refine ⟨s, ?_, hbecomes.tokens_eq, hbecomes.entities_eq⟩
  unfold Speech.ofParts
  rw [hs]
  have hopened : s.opened = [] := List.map_eq_nil_iff.mp hwell.names_eq
  simp only [bind, Except.bind, hopened]
  rfl

end Speech

end Utterance
