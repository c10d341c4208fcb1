import Utterance.Proofs.Recognition.Innermost
import Utterance.Proofs.Recognition.Surroundings

/-!
# Values that wait for a converter

Marks of entities are passed on at once, values said where a converter is open only when
the outermost converter closes.  `Converts` follows parts through converting, with the
frames that are open before and after them.  If every converter gives a value for a value
(`Converters.OneForOne`), then over a stretch in which everything closes no value is lost:
inside a converter all of them are held back in its frame (`HeldBack`,
`Braced.converts_inside`), and outside of all converters they are said in the entities that
they reach (`Braced.converts_outside`).

So an entity that opens where a converter is open takes down nothing, and any other one as
many values as reach it (`exists_span_before_converting`).
-/

namespace Utterance

/-! ## Converting a stretch -/

/-- With some frames open, the parts are turned into others, and these frames are open
then. -/
inductive Converts (cs : Converters) : List Frame → List Part → List Frame → List Part → Prop where
  | nil (frames : List Frame) : Converts cs frames [] frames []
  | opening {key : String} {p : Part} {frames frames' : List Frame} {l parts : List Part} :
      p.control? = some (.beginConvert key) → Converts cs ({ key } :: frames) l frames' parts →
      Converts cs frames (p :: l) frames' parts
  | outermost {p : Part} {f : Frame} {frames' : List Frame} {l closed parts : List Part} :
      p.control? = some (.endConvert f.key) → f.close cs = .ok closed →
      Converts cs [] l frames' parts → Converts cs [f] (p :: l) frames' (closed ++ parts)
  | inner {p : Part} {f g : Frame} {outer frames' : List Frame} {l closed parts : List Part} :
      p.control? = some (.endConvert f.key) → f.close cs = .ok closed →
      Converts cs (g.add closed :: outer) l frames' parts →
      Converts cs (f :: g :: outer) (p :: l) frames' parts
  | waits {p : Part} {v : Value} {f : Frame} {outer frames' : List Frame} {l parts : List Part} :
      p.said.value? = some v → Converts cs (f.add [p] :: outer) l frames' parts →
      Converts cs (f :: outer) (p :: l) frames' parts
  | passes {p : Part} {frames frames' : List Frame} {l parts : List Part} :
      Control.Passes p.control? → (frames = [] ∨ p.said.value? = none) →
      Converts cs frames l frames' parts → Converts cs frames (p :: l) frames' (p :: parts)

theorem Part.value?_of_control? {p : Part} {c : Control} (h : p.control? = some c) :
    p.said.value? = none := by
  rw [control?, steering?] at h
  split at h
  next hsaid => rw [hsaid]; rfl
  next => cases h

/-- The mark at the part of an emission is its label. -/
theorem Emission.control?_part (e : Emission) : e.part.control? = Control.read? e.label := by
  rw [Part.control?]
  cases hsteering : e.part.steering? with
  | some label =>
      rw [(of_part_steering? hsteering).1]
      rfl
  | none =>
      cases hread : Control.read? e.label with
      | none => rfl
      | some c =>
          rw [Part.steering?, Emission.part, Control.eq_text_of_read? hread, c.ofLabel_text] at hsteering
          cases hsteering

namespace Converts

variable {cs : Converters} {frames frames' : List Frame} {p : Part} {l m parts : List Part}

/-- Parts that have been converted have been followed. -/
theorem of_convertParts : ∀ {es : List Emission} {frames : List Frame} {parts : List Part},
    convertParts cs frames es = .ok parts → Converts cs frames (es.map Emission.part) [] parts
  | [], frames, parts, h => by
      cases frames with
      | nil =>
          cases h
          exact .nil []
      | cons f outer => cases h
  | e :: es, frames, parts, h => by
      have hcontrol := e.control?_part
      rw [List.map_cons]
      rcases Control.converts_or_passes (Control.read? e.label) with ⟨key, hread⟩ | ⟨key, hread⟩ | hp
      · rw [convertParts_begin hread] at h
        exact .opening (hcontrol.trans hread) (of_convertParts h)
      · cases frames with
        | nil =>
            rw [convertParts_end_nil hread] at h
            cases h
        | cons f outer =>
            rw [convertParts_end hread] at h
            split at h
            next => cases h
            next hkey =>
              obtain rfl : f.key = key := by simpa using hkey
              obtain ⟨closed, hclose, h⟩ := Except.bind_eq_ok.mp h
              cases outer with
              | nil =>
                  obtain ⟨later, hlater, rfl⟩ := Except.map_eq_ok.mp h
                  exact .outermost (hcontrol.trans hread) hclose (of_convertParts hlater)
              | cons g outer => exact .inner (hcontrol.trans hread) hclose (of_convertParts h)
      · have hpasses : Control.Passes e.part.control? := hcontrol ▸ hp
        cases frames with
        | nil =>
            rw [convertParts_passes_nil hp] at h
            obtain ⟨later, hlater, rfl⟩ := Except.map_eq_ok.mp h
            exact .passes hpasses (.inl rfl) (of_convertParts hlater)
        | cons f outer =>
            rw [convertParts_passes_cons hp] at h
            cases hvalue : e.part.said.value? with
            | some v =>
                rw [hvalue] at h
                exact .waits hvalue (of_convertParts h)
            | none =>
                rw [hvalue] at h
                obtain ⟨later, hlater, rfl⟩ := Except.map_eq_ok.mp h
                exact .passes hpasses (.inr hvalue) (of_convertParts hlater)

theorem append_inv {l : List Part} : ∀ {frames : List Frame} {parts : List Part},
    Converts cs frames (l ++ m) frames' parts →
      ∃ between first later, parts = first ++ later ∧ Converts cs frames l between first ∧
        Converts cs between m frames' later := by
  induction l with
  | nil => exact fun h => ⟨_, [], _, rfl, .nil _, h⟩
  | cons p l ih =>
      intro frames parts h
      rw [List.cons_append] at h
      cases h with
      | opening hp h =>
          obtain ⟨between, first, later, rfl, hfirst, hlater⟩ := ih h
          exact ⟨between, first, later, rfl, .opening hp hfirst, hlater⟩
      | outermost hp hclose h =>
          obtain ⟨between, first, later, rfl, hfirst, hlater⟩ := ih h
          exact ⟨between, _, later, (List.append_assoc ..).symm, .outermost hp hclose hfirst, hlater⟩
      | inner hp hclose h =>
          obtain ⟨between, first, later, rfl, hfirst, hlater⟩ := ih h
          exact ⟨between, first, later, rfl, .inner hp hclose hfirst, hlater⟩
      | waits hp h =>
          obtain ⟨between, first, later, rfl, hfirst, hlater⟩ := ih h
          exact ⟨between, first, later, rfl, .waits hp hfirst, hlater⟩
      | passes hp hframes h =>
          obtain ⟨between, first, later, rfl, hfirst, hlater⟩ := ih h
          exact ⟨between, p :: first, later, rfl, .passes hp hframes hfirst, hlater⟩

theorem opening_inv {key : String} (hp : p.control? = some (.beginConvert key))
    (h : Converts cs frames (p :: l) frames' parts) :
    Converts cs ({ key } :: frames) l frames' parts := by
  cases h with
  | opening hp' h =>
      cases hp.symm.trans hp'
      exact h
  | outermost hp' => cases hp.symm.trans hp'
  | inner hp' => cases hp.symm.trans hp'
  | waits hvalue =>
      rw [Part.value?_of_control? hp] at hvalue
      cases hvalue
  | passes hpasses => exact absurd hp (hpasses key).1

theorem outermost_inv {f : Frame} {key : String} (hp : p.control? = some (.endConvert key))
    (h : Converts cs [f] (p :: l) frames' parts) :
    ∃ closed later, f.close cs = .ok closed ∧ parts = closed ++ later ∧
      Converts cs [] l frames' later := by
  cases h with
  | opening hp' => cases hp.symm.trans hp'
  | outermost _ hclose h => exact ⟨_, _, hclose, rfl, h⟩
  | waits hvalue =>
      rw [Part.value?_of_control? hp] at hvalue
      cases hvalue
  | passes hpasses => exact absurd hp (hpasses key).2

theorem inner_inv {f g : Frame} {outer : List Frame} {key : String}
    (hp : p.control? = some (.endConvert key))
    (h : Converts cs (f :: g :: outer) (p :: l) frames' parts) :
    ∃ closed, f.close cs = .ok closed ∧ Converts cs (g.add closed :: outer) l frames' parts := by
  cases h with
  | opening hp' => cases hp.symm.trans hp'
  | inner _ hclose h => exact ⟨_, hclose, h⟩
  | waits hvalue =>
      rw [Part.value?_of_control? hp] at hvalue
      cases hvalue
  | passes hpasses => exact absurd hp (hpasses key).2

/-- Where a part passes that says no value, it is passed on at once. -/
theorem passes_inv (hp : Control.Passes p.control?) (hvalue : p.said.value? = none)
    (h : Converts cs frames (p :: l) frames' parts) :
    ∃ later, parts = p :: later ∧ Converts cs frames l frames' later := by
  cases h with
  | opening hp' => exact absurd hp' (hp _).1
  | outermost hp' => exact absurd hp' (hp _).2
  | inner hp' => exact absurd hp' (hp _).2
  | waits hvalue' => cases hvalue.symm.trans hvalue'
  | passes _ _ h => exact ⟨_, rfl, h⟩

/-- Where no converter is open, every part is passed on that does not open one. -/
theorem passes_nil_inv (hp : Control.Passes p.control?) (h : Converts cs [] (p :: l) frames' parts) :
    ∃ later, parts = p :: later ∧ Converts cs [] l frames' later := by
  cases h with
  | opening hp' => exact absurd hp' (hp _).1
  | passes _ _ h => exact ⟨_, rfl, h⟩

/-- Where a converter is open, a part waits or passes on no value. -/
theorem passes_cons_inv {f : Frame} {outer : List Frame} (hp : Control.Passes p.control?)
    (h : Converts cs (f :: outer) (p :: l) frames' parts) :
    Converts cs (f.add [p] :: outer) l frames' parts ∨
      p.said.value? = none ∧ ∃ later, parts = p :: later ∧
        Converts cs (f :: outer) l frames' later := by
  cases h with
  | opening hp' => exact absurd hp' (hp _).1
  | outermost hp' => exact absurd hp' (hp _).2
  | inner hp' => exact absurd hp' (hp _).2
  | waits _ h => exact .inl h
  | passes _ hframes h =>
      exact .inr ⟨hframes.resolve_left (List.cons_ne_nil _ _), _, rfl, h⟩

/-- The mark of an entity is passed on at once. -/
theorem entity_inv {name : String} (hp : p.opens? = some name ∨ p.closes? = some name)
    (h : Converts cs frames (p :: l) frames' parts) :
    ∃ later, parts = p :: later ∧ Converts cs frames l frames' later := by
  rcases hp with hp | hp
  · have hcontrol := Part.opens?_eq_some.mp hp
    exact passes_inv (hcontrol ▸ Control.passes_some rfl) (Part.value?_of_control? hcontrol) h
  · have hcontrol := Part.closes?_eq_some.mp hp
    exact passes_inv (hcontrol ▸ Control.passes_some rfl) (Part.value?_of_control? hcontrol) h

/-- The marks that close entities are all passed on. -/
theorem closings_eq (h : Converts cs frames l frames' parts) : closings parts = closings l := by
  have hnone : ∀ {p : Part} {c : Control}, p.control? = some c → c.closed? = none →
      p.closes? = none := fun hp hc => by rw [Part.closes?, hp]; exact hc
  have hclosed : ∀ {f : Frame} {closed : List Part}, f.close cs = .ok closed →
      closings closed = 0 := fun hclose =>
    congrArg List.length (List.filterMap_eq_nil_iff.mpr fun q hq => by
      rw [Part.closes?, Part.control?, steering?_of_mem_close hclose q hq]
      rfl)
  induction h with
  | nil => rfl
  | opening hp _ ih => rw [closings_cons_of_none (hnone hp rfl), ih]
  | outermost hp hclose _ ih =>
      rw [closings_cons_of_none (hnone hp rfl), closings_append, ih, hclosed hclose, Nat.zero_add]
  | inner hp _ _ ih => rw [closings_cons_of_none (hnone hp rfl), ih]
  | @waits p _ _ _ _ _ _ hvalue _ ih =>
      have hcloses : p.closes? = none := by
        rw [Part.closes?]
        cases hcontrol : p.control? with
        | none => rfl
        | some c =>
            rw [Part.value?_of_control? hcontrol] at hvalue
            cases hvalue
      rw [closings_cons_of_none hcloses, ih]
  | passes _ _ _ ih =>
      rw [closings, closings, filterMap_cons_toList, filterMap_cons_toList, List.length_append,
        List.length_append] at *
      rw [ih]

end Converts

/-! ## Values for values -/

/-- The converter under the key gives one value for each value, and none with an empty text. -/
def Converters.OneForOne (cs : Converters) (key : String) : Prop :=
  ∀ {values vs}, (∀ v ∈ values, Value.isSpoken v = true) → cs.apply key values = .ok vs →
    vs.length = values.length ∧ ∀ v ∈ vs, v.isSpoken = true

/-- The part says a value whose text is not empty, steers by a mark, or says nothing. -/
structure Part.Legible (p : Part) : Prop where
  spoken : ∀ v ∈ p.said.value?, v.isSpoken = true
  readable : ∀ label, p.said = .control label → Control.read? label ≠ none

theorem Value.asText?_of_isSpoken {v : Value} (h : v.isSpoken = true) : v.asText? ≠ some "" := by
  intro htext
  cases v with
  | text s =>
      obtain rfl : s = "" := Option.some.inj htext
      cases h
  | _ => cases htext

/-- A function that gives a value for each value does so as a converter, which is not told of
empty texts. -/
theorem Converters.oneForOne_of_get? {cs : Converters} {key : String}
    (h : ∀ {f values args vs}, cs.get? ((key.pieces ',').headD "") = some f →
      (∀ v ∈ values, Value.isSpoken v = true) → f values args = .ok vs →
        vs.length = values.length ∧ ∀ v ∈ vs, v.isSpoken = true) : cs.OneForOne key := by
  intro values vs hvalues happly
  have hall : values.filter (fun v => v.asText? != some "") = values :=
    List.filter_eq_self.mpr fun v hv => bne_iff_ne.mpr (Value.asText?_of_isSpoken (hvalues v hv))
  unfold Converters.apply at happly
  rw [hall] at happly
  split at happly
  next => cases happly
  next f hget =>
    split at happly
    next ws hws =>
      cases happly
      exact h hget hvalues hws
    next => cases happly
    next => cases happly

theorem Frame.oneForOne_of_close {cs : Converters} {f : Frame} {closed : List Part}
    (h : f.close cs = .ok closed) (hcs : cs.OneForOne f.key)
    (hvalues : ∀ v ∈ saidValues f.parts, v.isSpoken = true) :
    (saidValues closed).length = (saidValues f.parts).length ∧
      ∀ v ∈ saidValues closed, v.isSpoken = true := by
  have happly := f.close_values cs
  rw [h] at happly
  exact hcs hvalues happly.symm

/-- The part is legible, and if it closes a converter, that one gives a value for a value. -/
structure Part.Fair (cs : Converters) (p : Part) : Prop where
  legible : p.Legible
  oneForOne : ∀ key, p.control? = some (.endConvert key) → cs.OneForOne key

theorem Part.Legible.spoken_eq {p : Part} (hp : p.Legible) : p.spoken = p.said.value?.toList := by
  rw [Part.spoken]
  cases hsaid : p.said with
  | control label =>
      cases hread : Control.read? label with
      | none => exact absurd hread (hp.readable label hsaid)
      | some c => simp only [hread]; rfl
  | _ => rfl

theorem Part.Legible.saidIn_eq {p : Part} (hp : p.Legible) : saidIn [p] = p.said.value?.toList := by
  rw [saidIn, List.flatMap_singleton, hp.spoken_eq]
  exact List.filter_eq_self.mpr fun v hv => hp.spoken v (Option.mem_toList.mp hv)

/-- The part of a clean label is legible. -/
theorem Emission.legible_part {e : Emission} (h : Label.Clean e.label) : e.part.Legible := by
  constructor
  · intro v hv
    change v ∈ (Said.ofLabel e.label).value? at hv
    rw [Said.ofLabel] at hv
    split at hv
    next => cases hv
    next hempty =>
      split at hv
      next => cases hv
      next =>
        cases hv
        exact bne_iff_ne.mpr fun heq => hempty (String.isEmpty_iff.mpr (Option.some.inj heq))
  · intro label hsaid hread
    have hsteering : e.part.steering? = some label := by rw [Part.steering?, hsaid]
    obtain ⟨rfl, hcontrol⟩ := Emission.of_part_steering? hsteering
    rw [h hread] at hcontrol
    cases hcontrol

/-! ## Stretches in which everything closes -/

theorem saidIn_eq_nil {l : List Part} (h : ∀ q ∈ l, q.spoken = []) : saidIn l = [] := by
  rw [saidIn, List.flatMap_eq_nil_iff.mpr h, List.filter_nil]

theorem WellNested.of_stays {l : List Part} (h : ∀ q ∈ l, q.Stays) : WellNested l := by
  induction l with
  | nil => exact .nil
  | cons q l ih =>
      obtain ⟨hq, hl⟩ := List.forall_mem_cons.mp h
      exact .stays hq (ih hl)

theorem WellNested.outermost_append {l : List Part} (hl : WellNested l) (m : List Part) :
    outermost (l ++ m) = outermost l ++ outermost m := by
  rw [outermost, hl.depths_append, List.filter_append, List.map_append]
  rfl

/-- Marks say no value. -/
theorem saidValues_pair {x : Opened} {opening closing : Part} (hbegins : opening.begins? = some x)
    (hends : closing.ends? = some x) (inside l : List Part) :
    saidValues (opening :: (inside ++ closing :: l)) = saidValues inside ++ saidValues l := by
  obtain ⟨c, hc, -⟩ := Option.bind_eq_some_iff.mp hbegins
  obtain ⟨d, hd, -⟩ := Option.bind_eq_some_iff.mp hends
  rw [saidValues_cons, saidValues_append, saidValues_cons, Part.value?_of_control? hc,
    Part.value?_of_control? hd]
  rfl

/-! ## What is held back -/

theorem Frame.add_add (f : Frame) (l m : List Part) : (f.add l).add m = f.add (l ++ m) := by
  rw [add, add, add, List.append_assoc]

theorem Frame.add_nil (f : Frame) : f.add [] = f := by
  rw [add, List.append_nil]

/-- The second frame is the first one with `count` more values, none of which has an empty text. -/
def Frame.Gains (f f' : Frame) (count : Nat) : Prop :=
  ∃ more, f' = f.add more ∧ (∀ v ∈ saidValues more, v.isSpoken = true) ∧
    (saidValues more).length = count

namespace Frame.Gains

variable {f f' f'' : Frame} {m n : Nat}

theorem refl (f : Frame) : f.Gains f 0 :=
  ⟨[], f.add_nil.symm, fun _ hv => (List.not_mem_nil hv).elim, rfl⟩

theorem trans (h : f.Gains f' m) (h' : f'.Gains f'' n) : f.Gains f'' (m + n) := by
  obtain ⟨more, rfl, hspoken, rfl⟩ := h
  obtain ⟨more', rfl, hspoken', rfl⟩ := h'
  refine ⟨more ++ more', f.add_add more more', ?_, ?_⟩
  · rw [saidValues_append]
    exact List.forall_mem_append.mpr ⟨hspoken, hspoken'⟩
  · rw [saidValues_append, List.length_append]

theorem part {p : Part} (hp : p.Legible) (f : Frame) :
    f.Gains (f.add [p]) p.said.value?.toList.length := by
  have hvalues : saidValues [p] = p.said.value?.toList := by
    rw [saidValues_cons]
    exact List.append_nil _
  refine ⟨[p], rfl, ?_, congrArg List.length hvalues⟩
  rw [hvalues]
  exact fun v hv => hp.spoken v (Option.mem_toList.mp hv)

/-- When a converter closes, its values are handed on to the frame around it. -/
theorem close {cs : Converters} {key : String} {closed : List Part}
    (h : ({ key } : Frame).Gains f n) (hclose : f.close cs = .ok closed) (hcs : cs.OneForOne key)
    (g : Frame) : g.Gains (g.add closed) n := by
  obtain ⟨more, rfl, hspoken, rfl⟩ := h
  obtain ⟨hcount, hclosed⟩ := Frame.oneForOne_of_close hclose hcs hspoken
  exact ⟨closed, rfl, hclosed, hcount⟩

end Frame.Gains

/-- Where the outermost converter closes, its values are said, on one level. -/
theorem saidIn_of_close {cs : Converters} {key : String} {f : Frame} {n : Nat} {closed : List Part}
    (hclose : f.close cs = .ok closed) (hgains : ({ key } : Frame).Gains f n)
    (hcs : cs.OneForOne key) :
    WellNested closed ∧ outermost closed = closed ∧ (saidIn closed).length = n := by
  have hsteering := steering?_of_mem_close hclose
  have hstays : ∀ q ∈ closed, q.Stays := fun q hq => by
    rw [Part.Stays, Part.opens?, Part.closes?, Part.control?, hsteering q hq]
    exact ⟨rfl, rfl⟩
  have hnested : WellNested closed := .of_stays hstays
  refine ⟨hnested, hnested.outermost_eq fun q hq => (hstays q hq).1, ?_⟩
  have hspoken : ∀ q ∈ closed, q.spoken = q.said.value?.toList := fun q hq => by
    have hq := hsteering q hq
    rw [Part.steering?] at hq
    rw [Part.spoken]
    cases hsaid : q.said with
    | control label => simp [hsaid] at hq
    | _ => rfl
  obtain ⟨more, rfl, hmore, rfl⟩ := hgains
  obtain ⟨hcount, hclosed⟩ := Frame.oneForOne_of_close hclose hcs hmore
  rw [saidIn, List.flatMap_congr hspoken, ← List.filterMap_eq_flatMap_toList]
  exact (congrArg List.length (List.filter_eq_self.mpr hclosed)).trans hcount

/-- Of a stretch inside the frame `f` only these parts come out, which say nothing, while `count`
values wait in the frame, which has become `f'`. -/
structure HeldBack (f f' : Frame) (parts : List Part) (count : Nat) : Prop where
  nested : WellNested parts
  silent : ∀ q ∈ parts, q.spoken = []
  gains : f.Gains f' count

namespace HeldBack

variable {f f' f'' : Frame} {parts later : List Part} {m n : Nat}

theorem nil (f : Frame) : HeldBack f f [] 0 :=
  ⟨.nil, fun _ hq => (List.not_mem_nil hq).elim, .refl f⟩

/-- A part waits before the stretch. -/
theorem after (h : HeldBack f' f'' parts n) (hgains : f.Gains f' m) :
    HeldBack f f'' parts (m + n) :=
  ⟨h.nested, h.silent, hgains.trans h.gains⟩

theorem passing {p : Part} (hp : p.Stays) (hsilent : p.spoken = []) (f : Frame) :
    HeldBack f f [p] 0 :=
  ⟨.stays hp .nil, List.forall_mem_singleton.mpr hsilent, .refl f⟩

theorem append (h : HeldBack f f' parts m) (h' : HeldBack f' f'' later n) :
    HeldBack f f'' (parts ++ later) (m + n) :=
  ⟨h.nested.append h'.nested, List.forall_mem_append.mpr ⟨h.silent, h'.silent⟩,
    h.gains.trans h'.gains⟩

theorem entity {name : String} {opening closing : Part} (h : HeldBack f f' parts m)
    (hopens : opening.opens? = some name) (hcloses : closing.closes? = some name)
    (h' : HeldBack f' f'' later n) :
    HeldBack f f'' (opening :: (parts ++ closing :: later)) (m + n) where
  nested := .entity hopens h.nested hcloses h'.nested
  silent := List.forall_mem_cons.mpr ⟨Part.spoken_of_control? (Part.opens?_eq_some.mp hopens),
    List.forall_mem_append.mpr ⟨h.silent, List.forall_mem_cons.mpr
      ⟨Part.spoken_of_control? (Part.closes?_eq_some.mp hcloses), h'.silent⟩⟩⟩
  gains := h.gains.trans h'.gains

/-- Nothing of the stretch is said outside of further entities. -/
theorem saidIn_outermost (h : HeldBack f f' parts n) : saidIn (outermost parts) = [] :=
  saidIn_eq_nil fun q hq => h.silent q ((outermost_sublist parts).mem hq)

end HeldBack

namespace Braced

variable {cs : Converters} {l : List Part}

/-- What is said inside a converter is held back. -/
theorem converts_inside (hl : Braced l) : (∀ p ∈ l, p.Fair cs) →
    ∀ {f : Frame} {outer frames' : List Frame} {parts : List Part},
      Converts cs (f :: outer) l frames' parts →
      ∃ f', frames' = f' :: outer ∧ HeldBack f f' parts (saidValues l).length := by
  induction hl with
  | nil =>
      intro _ f outer frames' parts h
      cases h
      exact ⟨f, rfl, .nil f⟩
  | @plain p l hbegins hends _ ih =>
      intro hfair f outer frames' parts h
      obtain ⟨hp, hrest⟩ := List.forall_mem_cons.mp hfair
      rw [saidValues_cons, List.length_append]
      rcases h.passes_cons_inv (Part.passes_of_none hbegins hends) with
        hwaits | ⟨hvalue, later, rfl, hlater⟩
      · obtain ⟨f', rfl, hheld⟩ := ih hrest hwaits
        exact ⟨f', rfl, hheld.after (.part hp.legible f)⟩
      · obtain ⟨f', rfl, hheld⟩ := ih hrest hlater
        rw [hvalue]
        exact ⟨f', rfl, (HeldBack.passing (Part.stays_of_none hbegins hends)
          (hp.legible.spoken_eq.trans (by rw [hvalue]; rfl)) f).append hheld⟩
  | @pair x opening closing inside l hbegins hinside hends _ ihinside ih =>
      intro hfair f outer frames' parts h
      obtain ⟨-, hrest⟩ := List.forall_mem_cons.mp hfair
      obtain ⟨hinside', hrest⟩ := List.forall_mem_append.mp hrest
      obtain ⟨hclosing, hrest⟩ := List.forall_mem_cons.mp hrest
      rw [saidValues_pair hbegins hends, List.length_append]
      cases x with
      | entity name =>
          have hopens := Part.begins?_eq_entity.mp hbegins
          have hcloses := Part.ends?_eq_entity.mp hends
          obtain ⟨_, rfl, hopened⟩ := h.entity_inv (.inl hopens)
          obtain ⟨_, within, _, rfl, hwithin, hclosed⟩ := hopened.append_inv
          obtain ⟨g, rfl, hheld⟩ := ihinside hinside' hwithin
          obtain ⟨later, rfl, hlater⟩ := hclosed.entity_inv (.inr hcloses)
          obtain ⟨f', rfl, hheld'⟩ := ih hrest hlater
          exact ⟨f', rfl, hheld.entity hopens hcloses hheld'⟩
      | converter key =>
          have hkey := Part.ends?_eq_converter.mp hends
          have hopened := h.opening_inv (Part.begins?_eq_converter.mp hbegins)
          obtain ⟨_, within, later, rfl, hwithin, htail⟩ := hopened.append_inv
          obtain ⟨g, rfl, hheld⟩ := ihinside hinside' hwithin
          -- what waited in the frame of the converter goes on waiting in the next one
          obtain ⟨closed, hclose, hlater⟩ := htail.inner_inv hkey
          have hgains := hheld.gains.close hclose (hclosing.oneForOne key hkey) f
          have hhanded : HeldBack f (f.add closed) within _ := ⟨hheld.nested, hheld.silent, hgains⟩
          obtain ⟨f', rfl, hheld'⟩ := ih hrest hlater
          exact ⟨f', rfl, hhanded.append hheld'⟩

/-- Outside of all converters, the values that are said outside of further entities are as
many as reach the entities around. -/
theorem converts_outside (hl : Braced l) : (∀ p ∈ l, p.Fair cs) →
    ∀ {frames' : List Frame} {parts : List Part}, Converts cs [] l frames' parts →
      frames' = [] ∧ WellNested parts ∧
        (saidIn (outermost parts)).length = (saidValues (reaching l)).length := by
  induction hl with
  | nil =>
      intro _ frames' parts h
      cases h
      exact ⟨rfl, .nil, rfl⟩
  | @plain p l hbegins hends _ ih =>
      intro hfair frames' parts h
      obtain ⟨hp, hrest⟩ := List.forall_mem_cons.mp hfair
      obtain ⟨later, rfl, hlater⟩ := h.passes_nil_inv (Part.passes_of_none hbegins hends)
      obtain ⟨rfl, hnested, hlength⟩ := ih hrest hlater
      have hstays := Part.stays_of_none hbegins hends
      refine ⟨rfl, .stays hstays hnested, ?_⟩
      rw [outermost_cons_of_stays hstays, saidIn_cons, hp.legible.saidIn_eq, reaching_plain hbegins hends,
        saidValues_cons, List.length_append, List.length_append, hlength]
  | @pair x opening closing inside l hbegins hinside hends _ ihinside ih =>
      intro hfair frames' parts h
      obtain ⟨-, hrest⟩ := List.forall_mem_cons.mp hfair
      obtain ⟨hinside', hrest⟩ := List.forall_mem_append.mp hrest
      obtain ⟨hclosing, hrest⟩ := List.forall_mem_cons.mp hrest
      rw [reaching_pair hbegins hinside hends]
      cases x with
      | entity name =>
          have hopens := Part.begins?_eq_entity.mp hbegins
          have hcloses := Part.ends?_eq_entity.mp hends
          obtain ⟨_, rfl, hopened⟩ := h.entity_inv (.inl hopens)
          obtain ⟨_, within, _, rfl, hwithin, hclosed⟩ := hopened.append_inv
          obtain ⟨rfl, hnested, -⟩ := ihinside hinside' hwithin
          obtain ⟨later, rfl, hlater⟩ := hclosed.entity_inv (.inr hcloses)
          obtain ⟨rfl, hnested', hlength⟩ := ih hrest hlater
          refine ⟨rfl, .entity hopens hnested hcloses hnested', ?_⟩
          rw [outermost_entity hopens hnested hcloses, saidIn_cons, saidIn_of_opens? hopens,
            saidValues_cons, Part.value?_of_control? (Part.opens?_eq_some.mp hopens)]
          exact hlength
      | converter key =>
          have hopening := Part.begins?_eq_converter.mp hbegins
          have hkey := Part.ends?_eq_converter.mp hends
          obtain ⟨_, within, _, rfl, hwithin, htail⟩ := (h.opening_inv hopening).append_inv
          obtain ⟨f, rfl, hheld⟩ := hinside.converts_inside hinside' hwithin
          -- what waited in the frame is said where it closes
          obtain ⟨closed, later, hclose, rfl, hlater⟩ := htail.outermost_inv hkey
          obtain ⟨hwell, hlevel, hsaid⟩ := saidIn_of_close hclose hheld.gains
            (hclosing.oneForOne key hkey)
          obtain ⟨rfl, hnested', hlength⟩ := ih hrest hlater
          refine ⟨rfl, hheld.nested.append (hwell.append hnested'), ?_⟩
          rw [hheld.nested.outermost_append, hwell.outermost_append, hlevel, saidIn_append,
            saidIn_append, hheld.saidIn_outermost, List.nil_append, List.length_append, hsaid, hlength]
          simp only [Opened.isConverter, if_true]
          rw [List.append_assoc, List.singleton_append, saidValues_pair hbegins hends,
            List.length_append]

end Braced

/-! ## Entities before and after converting -/

/-- At the end of parts whose marks are nested, a frame is open if a converter is. -/
theorem Unended.frames_eq_nil_iff {cs : Converters} {S : List Opened} {l : List Part}
    (hl : Unended S l) : (∀ p ∈ l, p.Fair cs) →
      ∀ {frames : List Frame} {parts : List Part}, Converts cs [] l frames parts →
        (frames = [] ↔ ∀ x ∈ S, x.isConverter = false) := by
  induction hl with
  | closed hl =>
      intro hfair frames parts h
      exact iff_of_true (hl.converts_outside hfair h).1 fun _ hx => (List.not_mem_nil hx).elim
  | @inner S x before inside opening _ hbegins hinside ih =>
      intro hfair frames parts h
      obtain ⟨hbefore, hrest⟩ := List.forall_mem_append.mp hfair
      have hinside' := (List.forall_mem_cons.mp hrest).2
      obtain ⟨between, _, _, rfl, hfirst, htail⟩ := h.append_inv
      have ih := ih hbefore hfirst
      have hinner : ∀ {f : Frame} {outer : List Frame} {parts : List Part},
          Converts cs (f :: outer) inside frames parts → frames ≠ [] := by
        intro f outer parts h
        obtain ⟨_, rfl, -⟩ := hinside.converts_inside hinside' h
        exact List.cons_ne_nil _ _
      rw [List.forall_mem_cons]
      cases x with
      | converter key =>
          have hne := hinner (htail.opening_inv (Part.begins?_eq_converter.mp hbegins))
          exact iff_of_false hne fun hall => Bool.noConfusion hall.1
      | entity name =>
          obtain ⟨_, rfl, hopened⟩ := htail.entity_inv (.inl (Part.begins?_eq_entity.mp hbegins))
          rw [and_iff_right (by rfl), ← ih]
          cases between with
          | nil => exact iff_of_true (hinside.converts_outside hinside' hopened).1 rfl
          | cons f outer => exact iff_of_false (hinner hopened) (List.cons_ne_nil _ _)

/-- The span of an entity comes from one before converting.  If no converter is open there,
as many values are said in it outside of further entities as reach it, and none otherwise. -/
theorem exists_span_before_converting {cs : Converters} {l parts : List Part}
    (hfair : ∀ p ∈ l, p.Fair cs) (hnest : nestAll [] (l.filterMap Part.control?) = some [])
    (h : Converts cs [] l [] parts) (span : Span parts) :
    ∃ span' : Span l, span'.position = span.position ∧ span'.name = span.name ∧
      Braced span'.inside ∧ span.saidOutermost.length = if (around [] span'.before).any Opened.isConverter then 0
        else (saidValues (reaching span'.inside)).length := by
  have hlt : span.position < closings l := h.closings_eq ▸ span.position_lt
  obtain ⟨span', hposition, hinside⟩ := (exists_braced_span hnest).2 _ hlt
  obtain ⟨name, before, opening, inside, closing, after, hparts, hopens, hnested, hcloses⟩ := span'
  refine ⟨_, hposition, ?_⟩
  subst hparts
  -- the marks before the entity are nested, so that the frames there are known
  obtain ⟨S, hS⟩ : ∃ S, nestAll [] (before.filterMap Part.control?) = some S := by
    rw [List.filterMap_append, nestAll_append] at hnest
    exact (Option.bind_eq_some_iff.mp hnest).imp fun _ hS => hS.1
  have hunended := (exists_braced_span hS).1
  obtain ⟨hbefore, hrest⟩ := List.forall_mem_append.mp hfair
  have hwithin := (List.forall_mem_append.mp (List.forall_mem_cons.mp hrest).2).1
  obtain ⟨frames, before', _, rfl, hfirst, htail⟩ := h.append_inv
  have hframes := hunended.frames_eq_nil_iff hbefore hfirst
  obtain ⟨_, rfl, hopened⟩ := htail.entity_inv (.inl hopens)
  obtain ⟨between, inside', _, rfl, hmiddle, hclosed⟩ := hopened.append_inv
  obtain ⟨after', rfl, -⟩ := hclosed.entity_inv (.inr hcloses)
  have hspan : ∀ hwell : WellNested inside',
      span = ⟨name, before', opening, inside', closing, after', rfl, hopens, hwell, hcloses⟩ := by
    intro hwell
    refine Span.eq_of_position_eq (hposition.symm.trans ?_)
    exact congrArg₂ (· + ·) hfirst.closings_eq.symm hmiddle.closings_eq.symm
  have hany : (around [] before).any Opened.isConverter = true ↔ frames ≠ [] := by
    rw [hunended.around_eq, List.any_eq_true, Ne, hframes]
    simp
  cases frames with
  | nil =>
      obtain ⟨-, hwell, hlength⟩ := hinside.converts_outside hwithin hmiddle
      rw [hspan hwell]
      refine ⟨rfl, hinside, ?_⟩
      rw [if_neg fun hconverter => hany.mp hconverter rfl]
      exact hlength
  | cons f outer =>
      obtain ⟨_, -, hheld⟩ := hinside.converts_inside hwithin hmiddle
      rw [hspan hheld.nested]
      refine ⟨rfl, hinside, ?_⟩
      rw [if_pos (hany.mpr (List.cons_ne_nil _ _))]
      exact congrArg List.length hheld.saidIn_outermost

end Utterance
