import Mathlib.Data.List.Induction
import Utterance.Proofs.Recognition.Protocol
import Utterance.Proofs.Recognition.Spans

/-!
# What an entity takes down

A speech takes down what the parts hear and say, in their order
(`Speech.Took.of_foldlM`), and counts how much room that takes (`Speech.Counted`).
The innermost open entity takes down the same while it is the innermost
(`Speech.grows_of_wellNested`).  So every entity of a speech has a span
(`Speech.exists_spans`), and what the parts of the span come to is what it holds
(`Speech.exists_entity`).

`interpret_spans` says this of a recognition: its entities have spans in the order
in which the marks on its path close them.
-/

namespace Utterance

/-! ## What parts come to -/

/-- What is heard in the parts. -/
def heardIn (l : List Part) : List String := l.flatMap Part.heard

/-- What is said in the parts, apart from values with an empty text. -/
def saidIn (l : List Part) : List Value := (l.flatMap Part.spoken).filter Value.isSpoken

@[simp] theorem heardIn_nil : heardIn [] = [] := rfl

theorem heardIn_append (l m : List Part) : heardIn (l ++ m) = heardIn l ++ heardIn m :=
  List.flatMap_append

theorem saidIn_append (l m : List Part) : saidIn (l ++ m) = saidIn l ++ saidIn m := by
  rw [saidIn, List.flatMap_append, List.filter_append]
  rfl

theorem heardIn_cons (p : Part) (l : List Part) : heardIn (p :: l) = p.heard ++ heardIn l :=
  List.flatMap_cons

theorem saidIn_cons (p : Part) (l : List Part) : saidIn (p :: l) = saidIn [p] ++ saidIn l :=
  saidIn_append [p] l

/-- A mark says nothing. -/
theorem Part.spoken_of_control? {p : Part} {c : Control} (h : p.control? = some c) :
    p.spoken = [] := by
  obtain ⟨raw, said, matched⟩ := p
  cases said with
  | nothing => cases h
  | value v => cases h
  | control label =>
      have hread : Control.read? label = some c := h
      simp [spoken, hread]

theorem saidIn_of_control {p : Part} {c : Control} (h : p.control? = some c) :
    saidIn [p] = [] := by
  rw [saidIn, List.flatMap_singleton, Part.spoken_of_control? h, List.filter_nil]

theorem saidIn_of_opens? {p : Part} {name : String} (h : p.opens? = some name) :
    saidIn [p] = [] := saidIn_of_control (Part.opens?_eq_some.mp h)

theorem saidIn_of_closes? {p : Part} {name : String} (h : p.closes? = some name) :
    saidIn [p] = [] := saidIn_of_control (Part.closes?_eq_some.mp h)

/-- The text of a value; empty if it has none. -/
def Value.shownText (v : Value) : String := v.display?.getD ""

theorem shown_eq_ok {v : Value} {text : String} (h : shown v = .ok text) :
    v.display? = some text := by
  unfold shown at h
  cases hdisplay : v.display? with
  | none =>
      rw [hdisplay] at h
      cases h
  | some s =>
      rw [hdisplay] at h
      rw [Except.ok.inj h]

/-- The text of values is that of their texts. -/
theorem shownAll_eq_ok {l : List Value} {text : String} (h : shownAll l = .ok text) :
    text = spaced (l.map Value.shownText) := by
  have htexts : ∀ {l : List Value} {texts : List String}, l.mapM shown = .ok texts →
      texts = l.map Value.shownText := by
    intro l
    induction l with
    | nil =>
        intro texts h
        cases h
        rfl
    | cons v l ih =>
        intro texts h
        rw [List.mapM_cons] at h
        obtain ⟨t, ht, h⟩ := Except.bind_eq_ok.mp h
        obtain ⟨ts, hts, h⟩ := Except.bind_eq_ok.mp h
        cases h
        rw [List.map_cons, ih hts, Value.shownText, shown_eq_ok ht]
        rfl
  obtain ⟨texts, hmap, heq⟩ := Except.bind_eq_ok.mp h
  cases heq
  rw [htexts hmap]

/-- Marks among the parts are those of entities and sources. -/
def Part.Converted (p : Part) : Prop := ∀ c ∈ p.control?, c.isEntity = true

/-! ## Entities that grow -/

/-- The entity has taken down more values and words since. -/
structure Entity.Grows (e e' : Entity) (values : List Value) (words : List String) : Prop where
  name_eq : e'.name = e.name
  first_eq : e'.first = e.first
  rawFirst_eq : e'.rawFirst = e.rawFirst
  tokens_eq : e'.tokens = e.tokens ++ values
  rawTokens_eq : e'.rawTokens = e.rawTokens ++ words

theorem Entity.Grows.refl (e : Entity) : e.Grows e [] [] where
  name_eq := rfl
  first_eq := rfl
  rawFirst_eq := rfl
  tokens_eq := (List.append_nil _).symm
  rawTokens_eq := (List.append_nil _).symm

theorem Entity.Grows.trans {e e' e'' : Entity} {vs ws : List Value} {l m : List String}
    (h : e.Grows e' vs l) (h' : e'.Grows e'' ws m) : e.Grows e'' (vs ++ ws) (l ++ m) where
  name_eq := h'.name_eq.trans h.name_eq
  first_eq := h'.first_eq.trans h.first_eq
  rawFirst_eq := h'.rawFirst_eq.trans h.rawFirst_eq
  tokens_eq := by rw [h'.tokens_eq, h.tokens_eq, List.append_assoc]
  rawTokens_eq := by rw [h'.rawTokens_eq, h.rawTokens_eq, List.append_assoc]

namespace Speech

/-! ## One part -/

/-- The offsets are those of the words that would come next. -/
structure Counted (s : Speech) : Prop where
  offset_eq : s.offset = roomAll (s.tokens.map Value.shownText)
  rawOffset_eq : s.rawOffset = roomAll s.rawTokens

theorem roomAll_append (l m : List String) : roomAll (l ++ m) = roomAll l + roomAll m := by
  induction l with
  | nil => exact (Nat.zero_add _).symm
  | cons word l ih => rw [List.cons_append, roomAll, ih, roomAll, Nat.add_assoc]

/-- From `s` a speech has come to `t` by taking down parts. -/
structure Took (s t : Speech) (parts : List Part) : Prop where
  tokens_eq : t.tokens = s.tokens ++ saidIn parts
  rawTokens_eq : t.rawTokens = s.rawTokens ++ heardIn parts
  entities_kept : s.entities <+: t.entities
  length_entities : t.entities.length = s.entities.length + closings parts
  counted : s.Counted → t.Counted

theorem Took.refl (s : Speech) : s.Took s [] where
  tokens_eq := (List.append_nil _).symm
  rawTokens_eq := (List.append_nil _).symm
  entities_kept := List.prefix_rfl
  length_entities := rfl
  counted := id

theorem Took.trans {s t u : Speech} {l m : List Part} (h : s.Took t l) (h' : t.Took u m) :
    s.Took u (l ++ m) where
  tokens_eq := by rw [h'.tokens_eq, h.tokens_eq, saidIn_append, List.append_assoc]
  rawTokens_eq := by rw [h'.rawTokens_eq, h.rawTokens_eq, heardIn_append, List.append_assoc]
  entities_kept := h.entities_kept.trans h'.entities_kept
  length_entities := by rw [h'.length_entities, h.length_entities, closings_append, Nat.add_assoc]
  counted := h'.counted ∘ h.counted

/-- From `s` a speech has come to `t` without opening or closing an entity: what is
taken down, the innermost open entity takes down as well. -/
structure Notes (s t : Speech) (values : List Value) (words : List String) : Prop where
  opened_eq : ∃ f : Entity → Entity, t.opened = s.opened.modifyHead f ∧
    ∀ e : Entity, e.Grows (f e) values words
  entities_eq : t.entities = s.entities
  tokens_eq : t.tokens = s.tokens ++ values
  rawTokens_eq : t.rawTokens = s.rawTokens ++ words
  offset_eq : t.offset = s.offset + roomAll (values.map Value.shownText)
  rawOffset_eq : t.rawOffset = s.rawOffset + roomAll words

theorem Notes.refl (s : Speech) : s.Notes s [] [] where
  opened_eq := ⟨id, (List.modifyHead_id ▸ rfl), Entity.Grows.refl⟩
  entities_eq := rfl
  tokens_eq := (List.append_nil _).symm
  rawTokens_eq := (List.append_nil _).symm
  offset_eq := rfl
  rawOffset_eq := rfl

theorem Notes.trans {s t u : Speech} {vs ws : List Value} {l m : List String}
    (h : s.Notes t vs l) (h' : t.Notes u ws m) : s.Notes u (vs ++ ws) (l ++ m) where
  opened_eq := by
    obtain ⟨f, hf, hgrows⟩ := h.opened_eq
    obtain ⟨f', hf', hgrows'⟩ := h'.opened_eq
    refine ⟨f' ∘ f, ?_, fun e => (hgrows e).trans (hgrows' (f e))⟩
    rw [hf', hf, List.modifyHead_modifyHead]
  entities_eq := h'.entities_eq.trans h.entities_eq
  tokens_eq := by rw [h'.tokens_eq, h.tokens_eq, List.append_assoc]
  rawTokens_eq := by rw [h'.rawTokens_eq, h.rawTokens_eq, List.append_assoc]
  offset_eq := by rw [h'.offset_eq, h.offset_eq, List.map_append, roomAll_append, Nat.add_assoc]
  rawOffset_eq := by rw [h'.rawOffset_eq, h.rawOffset_eq, roomAll_append, Nat.add_assoc]

theorem Notes.names_eq {s t : Speech} {values : List Value} {words : List String}
    (h : s.Notes t values words) : t.opened.map Entity.name = s.opened.map Entity.name := by
  obtain ⟨f, hf, hgrows⟩ := h.opened_eq
  rw [hf]
  cases s.opened with
  | nil => rfl
  | cons e outer => exact congrArg (· :: _) (hgrows e).name_eq

theorem Notes.counted {s t : Speech} {values : List Value} {words : List String}
    (h : s.Notes t values words) (hs : s.Counted) : t.Counted where
  offset_eq := by rw [h.offset_eq, hs.offset_eq, h.tokens_eq, List.map_append, roomAll_append]
  rawOffset_eq := by rw [h.rawOffset_eq, hs.rawOffset_eq, h.rawTokens_eq, roomAll_append]

theorem opened_mapInnermost (s : Speech) (f : Entity → Entity) :
    (s.mapInnermost f).opened = s.opened.modifyHead f := by
  unfold mapInnermost
  split
  next h => rw [h]; rfl
  next h => rw [h]; rfl

/-- Only the innermost open entity is changed. -/
theorem notes_mapInnermost (s : Speech) {f : Entity → Entity}
    (hf : ∀ e : Entity, e.Grows (f e) [] []) : s.Notes (s.mapInnermost f) [] [] := by
  refine ⟨⟨f, opened_mapInnermost s f, hf⟩, ?_, ?_, ?_, ?_, ?_⟩ <;>
    · unfold mapInnermost
      split <;> simp [roomAll]

theorem notes_hear (s : Speech) (words : List String) : s.Notes (s.hear words) [] words := by
  have hopened := opened_mapInnermost s fun e => { e with rawTokens := e.rawTokens ++ words }
  have hgrows := fun e : Entity => (⟨rfl, rfl, rfl, (List.append_nil _).symm, rfl⟩ :
    e.Grows { e with rawTokens := e.rawTokens ++ words } [] words)
  refine ⟨⟨_, hopened, hgrows⟩, ?_, ?_, ?_, ?_, ?_⟩ <;>
    · unfold hear mapInnermost
      cases s.opened <;> simp [roomAll]

theorem notes_note (s : Speech) {v : Value} {text : String} (h : v.display? = some text) :
    s.Notes (s.note v text) [v] [] := by
  have hopened := opened_mapInnermost s fun e => { e with tokens := e.tokens ++ [v] }
  have htext : v.shownText = text := by rw [Value.shownText, h]; rfl
  have hgrows := fun e : Entity => (⟨rfl, rfl, rfl, rfl, (List.append_nil _).symm⟩ :
    e.Grows { e with tokens := e.tokens ++ [v] } [v] [])
  refine ⟨⟨_, hopened, hgrows⟩, ?_, ?_, ?_, ?_, ?_⟩ <;>
    · unfold note mapInnermost
      cases s.opened <;> simp [roomAll, htext]

theorem notes_say {s t : Speech} {v : Value} (h : s.say v = .ok t) :
    s.Notes t ([v].filter Value.isSpoken) [] := by
  obtain ⟨text, htext⟩ : ∃ text, shown v = .ok text :=
    (Except.bind_eq_ok.mp h).imp fun _ h => h.1
  have hdisplay := shown_eq_ok htext
  rw [say_eq htext] at h
  cases h
  by_cases hempty : text = ""
  · have hspoken : v.isSpoken = false := by rw [Value.isSpoken, hdisplay, hempty]; rfl
    rw [hempty, if_pos (by rfl), List.filter_singleton, hspoken]
    exact .refl s
  · have hspoken : v.isSpoken = true := by
      rw [Value.isSpoken, hdisplay, bne_iff_ne]
      exact fun h => hempty (Option.some.inj h)
    rw [if_neg (by simpa using hempty), List.filter_singleton, hspoken]
    exact notes_note s hdisplay

/-- A part at which no entity opens or closes is taken down. -/
theorem notes_add {s t : Speech} {p : Part} (hp : p.Converted) (hstays : p.Stays)
    (h : s.add p = .ok t) : s.Notes t (saidIn [p]) p.heard := by
  have hhear := s.notes_hear p.heard
  obtain ⟨raw, said, matched⟩ := p
  cases said with
  | nothing =>
      cases h
      exact hhear
  | value v =>
      have hsay := hhear.trans (notes_say h)
      rwa [List.append_nil] at hsay
  | control label =>
      unfold add at h
      cases hread : Control.read? label with
      | none =>
          simp only [hread] at h
          have hsay := hhear.trans (notes_say h)
          rw [List.append_nil] at hsay
          simpa [saidIn, Part.spoken, hread] using hsay
      | some c =>
          have hcontrol : Part.control? ⟨raw, .control label, matched⟩ = some c := hread
          rw [saidIn_of_control hcontrol]
          have hentity := hp c hcontrol
          cases c with
          | beginEntity name => cases hstays.1.symm.trans (Part.opens?_eq_some.mpr hcontrol)
          | endEntity name => cases hstays.2.symm.trans (Part.closes?_eq_some.mpr hcontrol)
          | source slot =>
              simp only [hread] at h
              cases h
              have hsource := hhear.trans (notes_mapInnermost _ fun e =>
                (⟨rfl, rfl, rfl, (List.append_nil _).symm, (List.append_nil _).symm⟩ :
                  e.Grows { e with source := some slot } [] []))
              rwa [List.append_nil, List.append_nil] at hsource
          | _ => cases hentity

theorem add_of_opens? {s t : Speech} {p : Part} {name : String} (hp : p.opens? = some name)
    (h : s.add p = .ok t) : t = (s.hear p.heard).openEntity name := by
  have hcontrol := Part.opens?_eq_some.mp hp
  obtain ⟨raw, said, matched⟩ := p
  cases said with
  | nothing => cases hcontrol
  | value v => cases hcontrol
  | control label =>
      have hread : Control.read? label = some (.beginEntity name) := hcontrol
      unfold add at h
      simp only [hread] at h
      exact (Except.ok.inj h).symm

/-- Where an entity closes, it is the innermost one that is open. -/
theorem add_of_closes? {s t : Speech} {p : Part} {name : String} (hp : p.closes? = some name)
    (h : s.add p = .ok t) :
    ∃ e outer e', (s.hear p.heard).opened = e :: outer ∧ e.name = name ∧
      (s.hear p.heard).finish e = .ok e' ∧
      t = { s.hear p.heard with
        opened := outer, entities := (s.hear p.heard).entities ++ [e'] } := by
  have hcontrol := Part.closes?_eq_some.mp hp
  obtain ⟨raw, said, matched⟩ := p
  cases said with
  | nothing => cases hcontrol
  | value v => cases hcontrol
  | control label =>
      have hread : Control.read? label = some (.endEntity name) := hcontrol
      unfold add at h
      simp only [hread] at h
      unfold closeEntity at h
      split at h
      next => cases h
      next e outer hopened =>
        split at h
        next => cases h
        next hname =>
          obtain ⟨e', hfinish, h⟩ := Except.bind_eq_ok.mp h
          exact ⟨e, outer, e', hopened, by simpa using hname, hfinish, (Except.ok.inj h).symm⟩

theorem Notes.took {s t : Speech} {p : Part} (h : s.Notes t (saidIn [p]) p.heard)
    (hp : p.closes? = none) : s.Took t [p] where
  tokens_eq := h.tokens_eq
  rawTokens_eq := by rw [h.rawTokens_eq, heardIn_cons, heardIn_nil, List.append_nil]
  entities_kept := h.entities_eq ▸ List.prefix_rfl
  length_entities := by rw [h.entities_eq, closings_cons_of_none hp]; rfl
  counted := h.counted

/-! ## All parts -/

theorem took_add {s t : Speech} {p : Part} (hp : p.Converted) (h : s.add p = .ok t) :
    s.Took t [p] := by
  have hhear := s.notes_hear p.heard
  cases hcloses : p.closes? with
  | some name =>
      obtain ⟨e, outer, e', -, -, -, rfl⟩ := add_of_closes? hcloses h
      rw [← saidIn_of_closes? hcloses] at hhear
      refine ⟨hhear.tokens_eq, ?_, ?_, ?_, fun hs => ?_⟩
      · rw [heardIn_cons, heardIn_nil, List.append_nil]
        exact hhear.rawTokens_eq
      · exact hhear.entities_eq ▸ List.prefix_append _ _
      · rw [closings_cons_of_closes? hcloses, List.length_append, hhear.entities_eq]
        rfl
      · exact ⟨(hhear.counted hs).offset_eq, (hhear.counted hs).rawOffset_eq⟩
  | none =>
      cases hopens : p.opens? with
      | none => exact (notes_add hp ⟨hopens, hcloses⟩ h).took hcloses
      | some name =>
          rw [add_of_opens? hopens h]
          rw [← saidIn_of_opens? hopens] at hhear
          have htook := hhear.took hcloses
          exact ⟨htook.tokens_eq, htook.rawTokens_eq, htook.entities_kept,
            htook.length_entities, fun hs =>
              ⟨(htook.counted hs).offset_eq, (htook.counted hs).rawOffset_eq⟩⟩

/-- A speech takes down what its parts hear and say. -/
theorem Took.of_foldlM : ∀ {l : List Part} {s t : Speech}, (∀ p ∈ l, p.Converted) →
    l.foldlM add s = .ok t → s.Took t l
  | [], s, t, _, h => by
      cases h
      exact .refl s
  | p :: l, s, t, hl, h => by
      rw [List.foldlM_cons] at h
      obtain ⟨u, hu, h⟩ := Except.bind_eq_ok.mp h
      obtain ⟨hp, hrest⟩ := List.forall_mem_cons.mp hl
      exact (took_add hp hu).trans (Took.of_foldlM hrest h)

theorem foldlM_append_eq_ok {l m : List Part} {s t : Speech} :
    (l ++ m).foldlM add s = .ok t ↔ ∃ u, l.foldlM add s = .ok u ∧ m.foldlM add u = .ok t := by
  rw [List.foldlM_append]
  exact Except.bind_eq_ok

theorem foldlM_cons_eq_ok {p : Part} {l : List Part} {s t : Speech} :
    (p :: l).foldlM add s = .ok t ↔ ∃ u, s.add p = .ok u ∧ l.foldlM add u = .ok t := by
  rw [List.foldlM_cons]
  exact Except.bind_eq_ok

/-- Over nested parts the innermost open entity takes down what is not inside another
one, and the open entities around it stay as they are. -/
theorem grows_of_wellNested {l : List Part} (hl : WellNested l) :
    ∀ {s t : Speech} {e : Entity} {outer : List Entity}, (∀ p ∈ l, p.Converted) →
      l.foldlM add s = .ok t → s.opened = e :: outer →
      ∃ e', t.opened = e' :: outer ∧ e.Grows e' (saidIn (outermost l)) (heardIn (outermost l)) := by
  induction hl with
  | nil =>
      intro s t e outer _ h hs
      cases h
      exact ⟨e, hs, .refl e⟩
  | @stays p l hp _ ih =>
      intro s t e outer hl h hs
      obtain ⟨u, hu, h⟩ := foldlM_cons_eq_ok.mp h
      obtain ⟨hconverted, hrest⟩ := List.forall_mem_cons.mp hl
      obtain ⟨f, hf, hgrows⟩ := (notes_add hconverted hp hu).opened_eq
      rw [hs] at hf
      obtain ⟨e', he', hgrows'⟩ := ih hrest h hf
      refine ⟨e', he', ?_⟩
      rw [outermost_cons_of_stays hp, saidIn_cons, heardIn_cons]
      exact (hgrows e).trans hgrows'
  | @entity name opening closing inside l hopens hinside hcloses _ ihinside ih =>
      intro s t e outer hl h hs
      obtain ⟨s₁, h₁, h⟩ := foldlM_cons_eq_ok.mp h
      obtain ⟨s₂, h₂, h⟩ := foldlM_append_eq_ok.mp h
      obtain ⟨s₃, h₃, h⟩ := foldlM_cons_eq_ok.mp h
      obtain ⟨hopening, hrest⟩ := List.forall_mem_cons.mp hl
      obtain ⟨hinside', hrest⟩ := List.forall_mem_append.mp hrest
      obtain ⟨hclosing, hrest⟩ := List.forall_mem_cons.mp hrest
      -- the entity that opens here is on top of `e` until it closes
      obtain ⟨f, hf, hgrows⟩ := (s.notes_hear opening.heard).opened_eq
      rw [hs] at hf
      obtain ⟨e₂, he₂, -⟩ := ihinside hinside' h₂
        (show s₁.opened = _ :: f e :: outer by rw [add_of_opens? hopens h₁, openEntity, hf]; rfl)
      obtain ⟨f', hf', -⟩ := (s₂.notes_hear closing.heard).opened_eq
      obtain ⟨_, outer', _, hopened, -, -, rfl⟩ := add_of_closes? hcloses h₃
      rw [hf', he₂] at hopened
      obtain ⟨-, rfl⟩ := List.cons.inj hopened
      obtain ⟨e', he', hgrows'⟩ := ih hrest h rfl
      refine ⟨e', he', ?_⟩
      rw [outermost_entity hopens hinside hcloses, saidIn_cons, heardIn_cons,
        saidIn_of_opens? hopens]
      exact (hgrows e).trans hgrows'

end Speech

/-! ## Spans -/

namespace Span

variable {parts : List Part} (span : Span parts)

/-- What is said before the entity opens. -/
def saidBefore : List Value := saidIn span.before

/-- What is heard before the entity opens. -/
def heardBefore : List String := heardIn (span.before ++ [span.opening])

/-- What is said while the entity is open. -/
def said : List Value := saidIn span.inside

/-- What is heard while the entity is open. -/
def heard : List String := heardIn (span.inside ++ [span.closing])

/-- What is said while the entity is the innermost open one. -/
def saidOutermost : List Value := saidIn (outermost span.inside)

/-- What is heard while the entity is the innermost open one. -/
def heardOutermost : List String := heardIn (outermost span.inside ++ [span.closing])

theorem saidIn_opening : saidIn (span.before ++ [span.opening]) = span.saidBefore := by
  rw [saidIn_append, saidIn_of_opens? span.opens, List.append_nil]
  rfl

theorem saidIn_closing : saidIn (span.inside ++ [span.closing]) = span.said := by
  rw [saidIn_append, saidIn_of_closes? span.closes, List.append_nil]
  rfl

theorem saidIn_eq : saidIn parts = span.saidBefore ++ span.said ++ saidIn span.after := by
  refine (congrArg saidIn span.parts_eq_append).trans ?_
  rw [saidIn_append, saidIn_append _ span.after, saidIn_opening, saidIn_closing, List.append_assoc]

theorem heardIn_eq : heardIn parts = span.heardBefore ++ span.heard ++ heardIn span.after := by
  refine (congrArg heardIn span.parts_eq_append).trans ?_
  rw [heardIn_append, heardIn_append _ span.after, List.append_assoc]
  rfl

/-- The entity holds what is taken down over its span. -/
structure Holds (e : Entity) : Prop where
  name_eq : e.name = span.name
  tokens_eq : e.tokens = span.saidOutermost
  rawTokens_eq : e.rawTokens = span.heardOutermost
  rawValue_eq : e.rawValue = spaced e.rawTokens
  display?_value : ∀ {text}, shownAll e.tokens = .ok text → e.value.display? = some text
  first_eq : e.first = roomAll (span.saidBefore.map Value.shownText)
  last_eq : e.last = roomAll ((span.saidBefore ++ span.said).map Value.shownText) - 1
  rawFirst_eq : e.rawFirst = roomAll span.heardBefore
  rawLast_eq : e.rawLast = roomAll (span.heardBefore ++ span.heard) - 1

end Span

namespace Speech

/-- An entity that is finished ends where the speech has come to. -/
structure Finished (s : Speech) (e e' : Entity) : Prop where
  grows : e.Grows e' [] []
  last_eq : e'.last = s.offset - 1
  rawLast_eq : e'.rawLast = s.rawOffset - 1
  rawValue_eq : e'.rawValue = spaced e.rawTokens
  display?_value : ∀ {text}, shownAll e.tokens = .ok text → e'.value.display? = some text

theorem finished_of_finish {s : Speech} {e e' : Entity} (h : s.finish e = .ok e') :
    s.Finished e e' := by
  have hgrows : ∀ value rawValue last rawLast,
      e.Grows { e with value, rawValue, last, rawLast } [] [] := fun _ _ _ _ =>
    ⟨rfl, rfl, rfl, (List.append_nil _).symm, (List.append_nil _).symm⟩
  unfold finish at h
  split at h
  next v htokens =>
    cases h
    refine ⟨hgrows .., rfl, rfl, rfl, fun {text} htext => ?_⟩
    rw [htokens] at htext
    obtain ⟨texts, htexts, htext⟩ := Except.bind_eq_ok.mp htext
    rw [List.mapM_cons] at htexts
    obtain ⟨shownText, hshown, htexts⟩ := Except.bind_eq_ok.mp htexts
    cases htexts
    cases htext
    exact shown_eq_ok hshown
  next =>
    cases hall : shownAll e.tokens with
    | error err =>
        rw [hall] at h
        cases h
    | ok shownText =>
        rw [hall] at h
        cases h
        exact ⟨hgrows .., rfl, rfl, rfl, fun htext =>
          congrArg some (Except.ok.inj (hall.symm.trans htext))⟩

/-- An entity opens empty, at the offsets of the speech. -/
theorem exists_opened {l : List Part} {p : Part} {name : String} (hp : p.opens? = some name)
    {s t : Speech} (h : (l ++ [p]).foldlM add s = .ok t) :
    ∃ e outer, t.opened = e :: outer ∧ e.tokens = [] ∧ e.rawTokens = [] ∧
      e.first = t.offset ∧ e.rawFirst = t.rawOffset := by
  obtain ⟨u, -, h⟩ := foldlM_append_eq_ok.mp h
  obtain ⟨_, h, hnil⟩ := foldlM_cons_eq_ok.mp h
  cases hnil
  rw [add_of_opens? hp h]
  exact ⟨_, _, rfl, rfl, rfl, rfl, rfl⟩

/-- Nested parts and one that closes finish the innermost open entity, with what they come
to on the outermost level. -/
theorem exists_finished {l : List Part} {p : Part} {name : String} (hl : WellNested l)
    (hp : p.closes? = some name) {s t : Speech} {e : Entity} {outer : List Entity}
    (hconverted : ∀ q ∈ l ++ [p], q.Converted) (h : (l ++ [p]).foldlM add s = .ok t)
    (hs : s.opened = e :: outer) :
    ∃ e₁ e', e.Grows e₁ (saidIn (outermost l)) (heardIn (outermost l ++ [p])) ∧ e₁.name = name ∧
      t.Finished e₁ e' ∧ ∃ closed, t.entities = closed ++ [e'] := by
  obtain ⟨u, hu, h⟩ := foldlM_append_eq_ok.mp h
  obtain ⟨_, h, hnil⟩ := foldlM_cons_eq_ok.mp h
  cases hnil
  obtain ⟨e₀, he₀, hgrows⟩ :=
    grows_of_wellNested hl (List.forall_mem_append.mp hconverted).1 hu hs
  obtain ⟨f, hf, hgrows'⟩ := (u.notes_hear p.heard).opened_eq
  obtain ⟨e₁, _, e', hopened, hname, hfinish, rfl⟩ := add_of_closes? hp h
  rw [hf, he₀] at hopened
  obtain ⟨rfl, -⟩ := List.cons.inj hopened
  have hfinished := finished_of_finish hfinish
  refine ⟨_, e', ?_, hname, ⟨hfinished.grows, hfinished.last_eq, hfinished.rawLast_eq,
    hfinished.rawValue_eq, hfinished.display?_value⟩, _, rfl⟩
  have hall := hgrows.trans (hgrows' e₀)
  rw [List.append_nil] at hall
  rwa [heardIn_append, heardIn_cons, heardIn_nil, List.append_nil]

/-- Every span has its entity. -/
theorem exists_entity {parts : List Part} (hparts : ∀ p ∈ parts, p.Converted) {t : Speech}
    (h : parts.foldlM add {} = .ok t) (span : Span parts) :
    ∃ e, t.entities[span.position]? = some e ∧ span.Holds e := by
  rw [span.parts_eq_append] at h hparts
  obtain ⟨s, hs, h⟩ := foldlM_append_eq_ok.mp h
  obtain ⟨u, hu, h⟩ := foldlM_append_eq_ok.mp h
  obtain ⟨hopening, hrest⟩ := List.forall_mem_append.mp hparts
  obtain ⟨hclosing, hafter⟩ := List.forall_mem_append.mp hrest
  -- what has been taken down where the entity opens, and where it closes
  have htook := Took.of_foldlM hopening hs
  have htook' := Took.of_foldlM hclosing hu
  have hcount := htook.counted ⟨rfl, rfl⟩
  have hcount' := htook'.counted hcount
  have htokens : s.tokens = span.saidBefore := by
    rw [htook.tokens_eq, span.saidIn_opening]
    rfl
  have hraw : s.rawTokens = span.heardBefore := htook.rawTokens_eq
  have htokens' : u.tokens = span.saidBefore ++ span.said := by
    rw [htook'.tokens_eq, htokens, span.saidIn_closing]
  have hraw' : u.rawTokens = span.heardBefore ++ span.heard := by
    rw [htook'.rawTokens_eq, hraw]
    rfl
  obtain ⟨e, outer, hopened, hempty, hrawEmpty, hfirst, hrawFirst⟩ := exists_opened span.opens hs
  obtain ⟨e₁, e', hgrows₁, hname, hfinished, closed, hclosed⟩ :=
    exists_finished span.nested span.closes hclosing hu hopened
  have hgrows := hgrows₁.trans hfinished.grows
  rw [List.append_nil, List.append_nil] at hgrows
  have hrawTokens : e'.rawTokens = e₁.rawTokens := by
    rw [hfinished.grows.rawTokens_eq, List.append_nil]
  -- so many entities have been closed before
  have hlength : closed.length = span.position := by
    have hlength := htook'.length_entities
    rw [htook.length_entities, hclosed, List.length_append, List.length_singleton,
      Nat.add_assoc, span.closings_eq, ← Nat.add_assoc] at hlength
    exact (Nat.succ.inj hlength).trans (Nat.zero_add _)
  obtain ⟨more, hmore⟩ := (Took.of_foldlM hafter h).entities_kept
  refine ⟨e', ?_, ?_⟩
  · rw [← hmore, hclosed, ← hlength, List.append_assoc,
      List.getElem?_append_right (Nat.le_refl _), Nat.sub_self]
    rfl
  · constructor
    case name_eq => rw [hfinished.grows.name_eq, hname]
    case tokens_eq => rw [hgrows.tokens_eq, hempty, List.nil_append, Span.saidOutermost]
    case rawTokens_eq => rw [hgrows.rawTokens_eq, hrawEmpty, List.nil_append, Span.heardOutermost]
    case rawValue_eq => rw [hfinished.rawValue_eq, hrawTokens]
    case display?_value =>
      intro text htext
      rw [hfinished.grows.tokens_eq, List.append_nil] at htext
      exact hfinished.display?_value htext
    case first_eq => rw [hgrows.first_eq, hfirst, hcount.offset_eq, htokens]
    case last_eq => rw [hfinished.last_eq, hcount'.offset_eq, htokens']
    case rawFirst_eq => rw [hgrows.rawFirst_eq, hrawFirst, hcount.rawOffset_eq, hraw]
    case rawLast_eq => rw [hfinished.rawLast_eq, hcount'.rawOffset_eq, hraw']

/-- The open entities are those that are unclosed among the parts, and each of the
closed ones has its span. -/
theorem exists_spans {parts : List Part} : ∀ {t : Speech}, (∀ p ∈ parts, p.Converted) →
    parts.foldlM add {} = .ok t →
    Unclosed (t.opened.map Entity.name) parts ∧
      ∀ k < t.entities.length, ∃ span : Span parts, span.position = k := by
  induction parts using List.reverseRecOn with
  | nil =>
      intro t _ h
      cases h
      exact ⟨.none .nil, fun k hk => (Nat.not_lt_zero k hk).elim⟩
  | append_singleton l p ih =>
      intro t hl h
      obtain ⟨s, hs, h⟩ := foldlM_append_eq_ok.mp h
      obtain ⟨_, h, hnil⟩ := foldlM_cons_eq_ok.mp h
      cases hnil
      obtain ⟨hinit, hp⟩ := List.forall_mem_append.mp hl
      have hp := hp p (List.mem_singleton_self p)
      obtain ⟨hunclosed, hspans⟩ := ih hinit hs
      have hhear := s.notes_hear p.heard
      have hextend : ∀ k < s.entities.length, ∃ span : Span (l ++ [p]), span.position = k :=
        fun k hk => (hspans k hk).elim fun span hspan => ⟨span.extend [p], hspan⟩
      cases hcloses : p.closes? with
      | some name =>
          obtain ⟨e, outer, e', hopened, rfl, -, rfl⟩ := add_of_closes? hcloses h
          rw [← hhear.names_eq, hopened] at hunclosed
          obtain ⟨hrest, span, hspan⟩ := hunclosed.span hcloses
          refine ⟨hrest, fun k hk => ?_⟩
          have hlength : s.entities.length = closings l := by
            rw [(Took.of_foldlM hinit hs).length_entities]
            exact Nat.zero_add _
          rw [List.length_append, hhear.entities_eq, List.length_singleton] at hk
          rcases Nat.lt_or_eq_of_le (Nat.le_of_lt_succ hk) with hk | rfl
          · exact hextend k hk
          · exact ⟨span, hspan.trans hlength.symm⟩
      | none =>
          cases hopens : p.opens? with
          | some name =>
              rw [add_of_opens? hopens h]
              refine ⟨?_, fun k hk => hextend k (hhear.entities_eq ▸ hk)⟩
              rw [openEntity, List.map_cons, hhear.names_eq]
              exact hunclosed.opening hopens
          | none =>
              have hstays : p.Stays := ⟨hopens, hcloses⟩
              have hnotes := notes_add hp hstays h
              refine ⟨?_, fun k hk => hextend k (hnotes.entities_eq ▸ hk)⟩
              rw [hnotes.names_eq]
              exact hunclosed.append (.single hstays)

end Speech

/-! ## Recognitions -/

/-- The parts of a path, in which the converters have done their work. -/
def Graph.parts (g : Graph) (cs : Converters) (p : Path) : Except InterpretError (List Part) := do
  let emissions ← g.emissions p
  convertParts cs [] (emissions.filter Emission.counts)

theorem Graph.emission_eq_ok {g : Graph} {s : PathStep} {e : Emission}
    (h : g.emission s = .ok e) : e = g.emissionAt s := by
  have hsome : (g.label? s).isSome := by
    unfold emission at h
    split at h
    next => cases h
    next edge hedge =>
      simp only at h
      split at h
      next => cases h
      next label hlabel =>
        rw [label?, hedge]
        exact Option.isSome_iff_exists.mpr ⟨label, hlabel⟩
  exact (Except.ok.inj ((emission_eq hsome).symm.trans h)).symm

theorem Graph.emissions_eq_ok {g : Graph} : ∀ {p : Path} {es : List Emission},
    g.emissions p = .ok es → es = p.map g.emissionAt
  | [], es, h => by
      cases h
      rfl
  | s :: p, es, h => by
      rw [emissions, List.mapM_cons] at h
      obtain ⟨e, he, h⟩ := Except.bind_eq_ok.mp h
      obtain ⟨rest, hrest, h⟩ := Except.bind_eq_ok.mp h
      cases h
      rw [emission_eq_ok he, emissions_eq_ok hrest]
      rfl

/-- Of the controls those of entities and sources are left, where converting has done
its work and intents have been read. -/
theorem Emission.filter_control (e : Emission) :
    (if e.counts then (Control.read? e.label).filter (fun c => !c.isConverter) else none)
      = (Control.read? e.label).filter Control.isEntity := by
  cases hread : Control.read? e.label with
  | none => split <;> rfl
  | some c =>
      have hlabel := Control.eq_text_of_read? hread
      cases c with
      | intent name =>
          have hcounts : e.counts = false := by
            rw [counts, intent?, hlabel, Label.intent?_text]
            rfl
          rw [hcounts]
          rfl
      | _ =>
          have hintent : e.intent? = none := Label.intent?_of_read? fun name hname => by
            rw [hread] at hname
            cases hname
          have hnonempty : e.label.isEmpty = false := by
            cases hempty : e.label.isEmpty with
            | false => rfl
            | true =>
                have hnone : Control.read? "" = none := by decide
                rw [String.isEmpty_iff.mp hempty, hnone] at hread
                cases hread
          have hcounts : e.counts = true := by
            rw [counts, hintent, hnonempty, Bool.and_false]
            rfl
          rw [hcounts]
          rfl

/-- The marks of entities and sources on a path are those among its parts. -/
theorem Graph.controls_parts {g : Graph} {cs : Converters} {p : Path} {parts : List Part}
    (h : g.parts cs p = .ok parts) :
    parts.filterMap Part.control? = (g.controls p).filter Control.isEntity := by
  obtain ⟨es, hes, hparts⟩ := Except.bind_eq_ok.mp h
  have hcontrols : g.controls p = controlsOf es := by
    rw [controls, controlsOf_eq, emissions_eq_ok hes, map_emissionAt_label]
  rw [convertParts_controls hparts, hcontrols, controlsOf, controlsOf, List.filter_filterMap,
    List.filter_filterMap, List.filterMap_filter]
  exact List.filterMap_congr fun e _ => e.filter_control

theorem Graph.converted_of_parts {g : Graph} {cs : Converters} {p : Path} {parts : List Part}
    (h : g.parts cs p = .ok parts) : ∀ q ∈ parts, q.Converted := by
  intro q hq c hc
  have hmem : c ∈ parts.filterMap Part.control? := List.mem_filterMap.mpr ⟨q, hq, hc⟩
  rw [controls_parts h] at hmem
  exact (List.mem_filter.mp hmem).2

/-- The recognition is what the parts come to, and its entities have spans in the order
in which they close. -/
structure Recognition.Of (r : Recognition) (parts : List Part) : Prop where
  tokens_eq : r.tokens = saidIn parts
  rawTokens_eq : r.rawTokens = heardIn parts
  text_eq : shownAll r.tokens = .ok r.text
  rawText_eq : r.rawText = spaced r.rawTokens
  exists_span : ∀ {k e}, r.entities[k]? = some e → ∃ span : Span parts,
    span.position = k ∧ span.Holds e

/-- A path that has a meaning has parts, and its meaning is what they come to. -/
theorem interpret_spans {g : Graph} {cs : Converters} {p : Path} {cost : Option Float}
    {r : Recognition} (h : g.interpret cs p cost = .ok r) :
    ∃ parts, g.parts cs p = .ok parts ∧ r.Of parts := by
  obtain ⟨es, hes, h⟩ := Except.bind_eq_ok.mp h
  obtain ⟨parts, hparts, h⟩ := Except.bind_eq_ok.mp h
  obtain ⟨speech, hspeech, h⟩ := Except.bind_eq_ok.mp h
  obtain ⟨text, htext, h⟩ := Except.bind_eq_ok.mp h
  cases h
  have hall : g.parts cs p = .ok parts := by
    rw [Graph.parts, hes]
    exact hparts
  obtain ⟨s, hs, hspeech⟩ := Except.bind_eq_ok.mp hspeech
  obtain rfl : s = speech := by
    split at hspeech
    next => exact Except.ok.inj hspeech
    next => cases hspeech
  have hconverted := Graph.converted_of_parts hall
  have htook := Speech.Took.of_foldlM hconverted hs
  refine ⟨parts, hall, htook.tokens_eq, htook.rawTokens_eq, htext, rfl, fun {k e} he => ?_⟩
  have hlt : k < s.entities.length := (List.getElem?_eq_some_iff.mp he).1
  obtain ⟨span, rfl⟩ := (Speech.exists_spans hconverted hs).2 k hlt
  obtain ⟨e', he', hholds⟩ := Speech.exists_entity hconverted hs span
  exact ⟨span, rfl, Option.some.inj (he'.symm.trans he) ▸ hholds⟩

end Utterance
