import Utterance.Proofs.Recognition.Nesting

/-!
# What the built-in converters make of values

Only an object may have no text: one that holds a date-time without interchange
format.  So it is enough that values have data (`Value.Exports`), or that none is
an object (`Value.IsPlain`).  The built-in converters keep to either kind of
values, apart from those that make objects or date-times, and as long as they do
they show nothing that has no text (`builtin_avoids`).
-/

namespace Utterance

/-! ## Outcomes -/

/-- The outcome is another error than `bad`, or a result as `Q` says. -/
def Avoids {ε α : Type} (bad : ε) (x : Except ε α) (Q : α → Prop) : Prop :=
  match x with
  | .ok a => Q a
  | .error err => err ≠ bad

namespace Avoids

variable {ε α β : Type} {bad : ε} {x : Except ε α} {Q : α → Prop}

theorem ne (h : Avoids bad x Q) : x ≠ .error bad := by
  rintro rfl
  exact h rfl

theorem bind (h : Avoids bad x Q) {f : α → Except ε β} {R : β → Prop}
    (hf : ∀ a, Q a → Avoids bad (f a) R) : Avoids bad (x.bind f) R := by
  cases x with
  | error err => exact h
  | ok a => exact hf a h

theorem mono (h : Avoids bad x Q) {R : α → Prop} (hR : ∀ a, Q a → R a) : Avoids bad x R := by
  cases x with
  | error err => exact h
  | ok a => exact hR a h

theorem mapM {f : α → Except ε β} {R : β → Prop} : ∀ {l : List α},
    (∀ a ∈ l, Avoids bad (f a) R) → Avoids bad (l.mapM f) fun bs => ∀ b ∈ bs, R b
  | [], _ => fun _ hb => (List.not_mem_nil hb).elim
  | a :: l, hl => by
      rw [List.mapM_cons]
      refine (hl a List.mem_cons_self).bind fun b hb => ?_
      refine (mapM fun c hc => hl c (List.mem_cons_of_mem _ hc)).bind fun bs hbs => ?_
      exact List.forall_mem_cons.mpr ⟨hb, hbs⟩

theorem foldlM {f : β → α → Except ε β} {R : β → Prop} : ∀ {l : List α} {b : β},
    (∀ b, ∀ a ∈ l, R b → Avoids bad (f b a) R) → R b → Avoids bad (l.foldlM f b) R
  | [], _, _, hb => hb
  | a :: l, b, hl, hb => by
      rw [List.foldlM_cons]
      exact (hl b a List.mem_cons_self hb).bind fun c hc =>
        foldlM (fun b a ha => hl b a (List.mem_cons_of_mem _ ha)) hc

end Avoids

/-! ## Kinds of values -/

namespace Value

/-- The value has data. -/
def Exports (v : Value) : Prop := v.toJson?.isSome

/-- The value is no object. -/
def IsPlain (v : Value) : Prop := ∀ members, v ≠ .object members

/-- Values of the kind have a text.  All simple values are of the kind, and so is an
object of the kind with another text in it. -/
structure Kind (P : Value → Prop) : Prop where
  bool : ∀ b, P (.bool b)
  int : ∀ n, P (.int n)
  float : ∀ x, P (.float x)
  duration : ∀ x, P (.duration x)
  text : ∀ s, P (.text s)
  displayable : ∀ {v}, P v → v.Displayable
  tagged : ∀ {members} key argument,
    P (.object members) → P (.object (insertMember key (.text argument) members))

theorem kind_isPlain : Kind IsPlain where
  bool _ _ h := by cases h
  int _ _ h := by cases h
  float _ _ h := by cases h
  duration _ _ h := by cases h
  text _ _ h := by cases h
  displayable {v} h := by
    cases v with
    | object members => exact absurd rfl (h members)
    | _ => rfl
  tagged _ _ h := absurd rfl (h _)

theorem exports_members {members : List (String × Value)} :
    (membersJson? members).isSome ↔ ∀ m ∈ members, m.2.Exports := by
  induction members with
  | nil => simp [membersJson?]
  | cons m rest ih =>
      obtain ⟨key, v⟩ := m
      rw [List.forall_mem_cons, ← ih, Exports, membersJson?]
      cases v.toJson? with
      | none => simp
      | some j => cases membersJson? rest <;> simp

theorem exports_object {members : List (String × Value)} :
    (Value.object members).Exports ↔ ∀ m ∈ members, m.2.Exports := by
  rw [← exports_members, Exports, toJson?, Option.isSome_map]

/-- Of the objects those that have data have a text. -/
theorem displayable_object {members : List (String × Value)} :
    (Value.object members).Displayable ↔ (Value.object members).Exports := by
  rw [Displayable, display?, Option.isSome_map, Exports]

theorem mem_insertMember {key : String} {v : Value} {m : String × Value} :
    ∀ {members : List (String × Value)}, m ∈ insertMember key v members →
      m = (key, v) ∨ m ∈ members
  | [], h => .inl (List.mem_singleton.mp h)
  | (key', v') :: rest, h => by
      unfold insertMember at h
      split at h
      · exact List.mem_cons.mp h
      · split at h
        · exact (List.mem_cons.mp h).imp_right (List.mem_cons_of_mem _)
        · rcases List.mem_cons.mp h with rfl | h
          · exact .inr List.mem_cons_self
          · exact (mem_insertMember h).imp_right (List.mem_cons_of_mem _)

theorem kind_exports : Kind Exports where
  bool _ := rfl
  int _ := rfl
  float _ := rfl
  duration _ := rfl
  text _ := rfl
  displayable {v} h := by
    cases v with
    | object members => exact displayable_object.mpr h
    | _ => rfl
  tagged key argument h := by
    rw [exports_object] at h ⊢
    intro m hm
    rcases mem_insertMember hm with rfl | hm
    · rfl
    · exact h m hm

/-- Of the date-times those in interchange format have data. -/
theorem exports_dateTime {t : DateTime} : (Value.dateTime t).Exports ↔ t.hasShortForm = true := by
  rw [Exports, toJson?, Option.isSome_map, DateTime.shortText?]
  split <;> simp_all

end Value

/-! ## The converters -/

namespace Convert

variable {P : Value → Prop} {v : Value} {values : List Value}

theorem avoids_textOf (hv : v.Displayable) :
    Avoids .undisplayable (textOf v) fun s => v.display? = some s := by
  obtain ⟨s, hs⟩ := Option.isSome_iff_exists.mp hv
  rw [textOf, hs]
  rfl

theorem avoids_reject {α : Type} {Q : α → Prop} (message : String) :
    Avoids .undisplayable (reject message : Except ConvertError α) Q := by
  intro h
  cases h

theorem avoids_joined (hvalues : ∀ v ∈ values, v.Displayable) :
    Avoids .undisplayable (joined values) fun _ => True := by
  have htexts : Avoids .undisplayable (values.mapM textOf) fun texts => ∀ s ∈ texts, True :=
    Avoids.mapM fun v hv => (avoids_textOf (hvalues v hv)).mono fun _ _ => trivial
  exact htexts.bind fun _ _ => trivial

variable (hP : Value.Kind P)

include hP

theorem avoids_toInt (hv : P v) : Avoids .undisplayable (toInt v) P := by
  unfold toInt
  split
  next => exact hP.int _
  next => exact hP.int _
  next => exact hP.int _
  next =>
    split
    next => exact hP.int _
    next => exact avoids_reject _
  next => exact (avoids_textOf (hP.displayable hv)).bind fun _ _ => avoids_reject _

theorem avoids_toFloat (hv : P v) : Avoids .undisplayable (toFloat v) P := by
  unfold toFloat
  split
  next => exact hP.float _
  next => exact hP.float _
  next => exact hP.float _
  next =>
    split
    next => exact hP.float _
    next => exact avoids_reject _
  next => exact (avoids_textOf (hP.displayable hv)).bind fun _ _ => avoids_reject _

theorem avoids_toBool (hv : P v) : Avoids .undisplayable (toBool v) P := by
  unfold toBool
  split
  next => exact hP.bool _
  next => exact hP.bool _
  next => exact hP.bool _
  next => exact (avoids_textOf (hP.displayable hv)).bind fun _ _ => hP.bool _

theorem avoids_changeCase (f : String → String) (hv : P v) :
    Avoids .undisplayable (changeCase f v) P :=
  (avoids_textOf (hP.displayable hv)).bind fun _ _ => hP.text _

theorem avoids_toObject (hobject : ∀ {v}, P v → P (.object [("value", v)]))
    (hvalues : ∀ v ∈ values, P v) (args : List String) :
    Avoids .undisplayable (toObject values args) fun vs => ∀ v ∈ vs, P v := by
  have hwrap : ∀ v, P v → Avoids ConvertError.undisplayable
      (pure [Value.object [("value", v)]]) fun vs => ∀ v ∈ vs, P v := fun v hv w hw => by
    rw [List.mem_singleton.mp hw]
    exact hobject hv
  unfold toObject
  split
  next v => exact hwrap v (hvalues v List.mem_cons_self)
  next =>
    exact (avoids_joined fun v hv => hP.displayable (hvalues v hv)).bind fun s _ =>
      hwrap _ (hP.text s)

theorem avoids_tagObject (key argument : String) (hv : P v) :
    Avoids .undisplayable (tagObject key argument v) P := by
  unfold tagObject
  split
  next =>
    split
    next => exact hv
    next => exact hP.tagged _ _ hv
  next => exact (avoids_textOf (hP.displayable hv)).bind fun _ _ => avoids_reject _

theorem avoids_tagObjects (key : String) (hvalues : ∀ v ∈ values, P v) (args : List String) :
    Avoids .undisplayable (tagObjects key values args) fun vs => ∀ v ∈ vs, P v := by
  unfold tagObjects
  split
  next => exact avoids_reject _
  next => exact Avoids.mapM fun v hv => avoids_tagObject hP _ _ (hvalues v hv)

theorem avoids_find {α : Type} (what : String) {get? : String → Option α} {wrap : α → Value}
    (hwrap : ∀ {s a}, get? s = some a → P (wrap a)) (hvalues : ∀ v ∈ values, P v)
    (args : List String) :
    Avoids .undisplayable (find what get? wrap values args) fun vs => ∀ v ∈ vs, P v := by
  unfold find
  refine (avoids_joined fun v hv => hP.displayable (hvalues v hv)).bind fun s _ => ?_
  split
  next a ha =>
    intro v hv
    rw [List.mem_singleton.mp hv]
    exact hwrap ha
  next => exact avoids_reject _

theorem kind_numberValue (x : Float) : P (numberValue x) := by
  unfold numberValue
  split
  · exact hP.int _
  · exact hP.float _

end Convert

theorem Converters.mem_of_get? {cs : Converters} {name : String} {f : Converter}
    (h : cs.get? name = some f) : (name, f) ∈ cs.entries := by
  obtain ⟨before, after, hentries, -⟩ := List.lookup_eq_some_iff.mp h
  rw [hentries]
  exact List.mem_append_right _ List.mem_cons_self

open Utterance.Convert in
/-- The built-in converters keep to a kind of values and show no value without a
text, if what `object` and `datetime` make is of the kind. -/
theorem builtin_avoids {P : Value → Prop} (hP : Value.Kind P) {x : Extractor} {name : String}
    {f : Converter} (hf : (Converters.builtin x).get? name = some f)
    (hobject : name = "object" → ∀ {v}, P v → P (.object [("value", v)]))
    (hdate : name = "datetime" → ∀ {s t}, x.dateTime? s = some t → P (.dateTime t))
    {values : List Value} (hvalues : ∀ v ∈ values, P v) (args : List String) :
    Avoids .undisplayable (f values args) fun vs => ∀ v ∈ vs, P v := by
  have hmem := Converters.mem_of_get? hf
  simp only [Converters.builtin, List.mem_cons, Prod.mk.injEq, List.not_mem_nil, or_false] at hmem
  rcases hmem with ⟨rfl, rfl⟩ | ⟨rfl, rfl⟩ | ⟨rfl, rfl⟩ | ⟨rfl, rfl⟩ | ⟨rfl, rfl⟩ | ⟨rfl, rfl⟩ |
    ⟨rfl, rfl⟩ | ⟨rfl, rfl⟩ | ⟨rfl, rfl⟩ | ⟨rfl, rfl⟩ | ⟨rfl, rfl⟩
  · exact Avoids.mapM fun v hv => avoids_toInt hP (hvalues v hv)
  · exact Avoids.mapM fun v hv => avoids_toFloat hP (hvalues v hv)
  · exact Avoids.mapM fun v hv => avoids_toBool hP (hvalues v hv)
  · exact Avoids.mapM fun v hv => avoids_changeCase hP _ (hvalues v hv)
  · exact Avoids.mapM fun v hv => avoids_changeCase hP _ (hvalues v hv)
  · exact avoids_toObject hP (hobject rfl) hvalues args
  · exact avoids_tagObjects hP _ hvalues args
  · exact avoids_tagObjects hP _ hvalues args
  · exact avoids_find hP _ (fun _ => kind_numberValue hP _) hvalues args
  · exact avoids_find hP _ (fun _ => hP.duration _) hvalues args
  · exact avoids_find hP _ (hdate rfl) hvalues args

end Utterance
