import Utterance.Proofs.Recognition.Entities

/-!
# What stands around a part

The marks of entities and converters are nested in one another, on one stack.  Between
the part that opens an entity or a converter and the part that closes it, everything
that opens closes again (`Braced`), so that the stack after such a stretch is the one
before it (`Braced.around_append`).  If the marks are nested, every entity has a span
with such an inside (`exists_braced_span`).

What is said where a converter is open waits until the outermost one is closed, and by
then the entities inside it have closed.  So it reaches the entities around the
outermost converter alone.  `reaching` are the parts of a stretch whose values reach an
entity around it: those that no entity of the stretch is around, unless a converter is
around that entity.
-/

namespace Utterance

/-! ## Marks of entities and converters -/

def Opened.isConverter : Opened → Bool
  | .entity _ => false
  | .converter _ => true

/-- What a mark opens. -/
def Control.beginning? : Control → Option Opened
  | .beginEntity name => some (.entity name)
  | .beginConvert key => some (.converter key)
  | _ => none

/-- What a mark closes. -/
def Control.ending? : Control → Option Opened
  | .endEntity name => some (.entity name)
  | .endConvert key => some (.converter key)
  | _ => none

/-- The entity or converter that opens at the part. -/
def Part.begins? (p : Part) : Option Opened := p.control?.bind Control.beginning?

/-- The entity or converter that closes at the part. -/
def Part.ends? (p : Part) : Option Opened := p.control?.bind Control.ending?

namespace Part

variable {p : Part} {name key : String} {x : Opened}

theorem begins?_of_control? {c : Control} (h : p.control? = some c) :
    p.begins? = c.beginning? := by
  rw [begins?, h]
  rfl

theorem ends?_of_control? {c : Control} (h : p.control? = some c) : p.ends? = c.ending? := by
  rw [ends?, h]
  rfl

theorem begins?_eq_entity : p.begins? = some (.entity name) ↔ p.opens? = some name := by
  rw [begins?, opens?]
  cases p.control? with
  | none => simp
  | some c => cases c <;> simp [Control.beginning?, Control.opened?]

theorem ends?_eq_entity : p.ends? = some (.entity name) ↔ p.closes? = some name := by
  rw [ends?, closes?]
  cases p.control? with
  | none => simp
  | some c => cases c <;> simp [Control.ending?, Control.closed?]

theorem begins?_eq_converter :
    p.begins? = some (.converter key) ↔ p.control? = some (.beginConvert key) := by
  rw [begins?]
  cases p.control? with
  | none => simp
  | some c => cases c <;> simp [Control.beginning?]

theorem ends?_eq_converter :
    p.ends? = some (.converter key) ↔ p.control? = some (.endConvert key) := by
  rw [ends?]
  cases p.control? with
  | none => simp
  | some c => cases c <;> simp [Control.ending?]

theorem begins?_of_ends? (h : p.ends? = some x) : p.begins? = none := by
  rw [ends?] at h
  rw [begins?]
  cases hcontrol : p.control? with
  | none => rfl
  | some c =>
      rw [hcontrol] at h
      cases c <;> first | rfl | cases h

theorem passes_of_none (hbegins : p.begins? = none) (hends : p.ends? = none) :
    Control.Passes p.control? := by
  refine fun key => ⟨fun h => ?_, fun h => ?_⟩
  · rw [begins?_eq_converter.mpr h] at hbegins
    cases hbegins
  · rw [ends?_eq_converter.mpr h] at hends
    cases hends

theorem stays_of_none (hbegins : p.begins? = none) (hends : p.ends? = none) : p.Stays := by
  constructor
  · cases h : p.opens? with
    | none => rfl
    | some name =>
        rw [begins?_eq_entity.mpr h] at hbegins
        cases hbegins
  · cases h : p.closes? with
    | none => rfl
    | some name =>
        rw [ends?_eq_entity.mpr h] at hends
        cases hends

theorem stays_of_begins? (h : p.begins? = some (.converter key)) : p.Stays := by
  have hcontrol := begins?_eq_converter.mp h
  constructor
  · rw [opens?, hcontrol]
    rfl
  · rw [closes?, hcontrol]
    rfl

theorem stays_of_ends? (h : p.ends? = some (.converter key)) : p.Stays := by
  have hcontrol := ends?_eq_converter.mp h
  constructor
  · rw [opens?, hcontrol]
    rfl
  · rw [closes?, hcontrol]
    rfl

/-- What is open after the part. -/
def enter (S : List Opened) (p : Part) : List Opened :=
  match p.begins? with
  | some x => x :: S
  | none => if p.ends?.isSome then S.tail else S

theorem enter_of_none (hbegins : p.begins? = none) (hends : p.ends? = none) (S : List Opened) :
    enter S p = S := by
  rw [enter, hbegins, hends]
  rfl

theorem enter_of_begins? (h : p.begins? = some x) (S : List Opened) : enter S p = x :: S := by
  rw [enter, h]

theorem enter_of_ends? (h : p.ends? = some x) (y : Opened) (S : List Opened) :
    enter (y :: S) p = S := by
  rw [enter, begins?_of_ends? h, h]
  rfl

end Part

/-! ## Stretches in which everything closes -/

/-- What opens in the list closes in the list, the innermost first. -/
inductive Braced : List Part → Prop where
  | nil : Braced []
  | plain {p : Part} {l : List Part} :
      p.begins? = none → p.ends? = none → Braced l → Braced (p :: l)
  | pair {x : Opened} {opening closing : Part} {inside l : List Part} :
      opening.begins? = some x → Braced inside → closing.ends? = some x → Braced l →
      Braced (opening :: (inside ++ closing :: l))

/-- What is open after the parts, the innermost first, if the given are open before. -/
def around (S : List Opened) (l : List Part) : List Opened := l.foldl Part.enter S

theorem around_append (S : List Opened) (l m : List Part) :
    around S (l ++ m) = around (around S l) m := List.foldl_append

namespace Braced

variable {l m : List Part}

theorem append (hl : Braced l) (hm : Braced m) : Braced (l ++ m) := by
  induction hl with
  | nil => exact hm
  | plain hbegins hends _ ih => exact .plain hbegins hends ih
  | pair hbegins hinside hends _ _ ih =>
      rw [List.cons_append, List.append_assoc]
      exact .pair hbegins hinside hends ih

/-- Without the converters the entities are nested. -/
theorem wellNested (hl : Braced l) : WellNested l := by
  induction hl with
  | nil => exact .nil
  | plain hbegins hends _ ih => exact .stays (Part.stays_of_none hbegins hends) ih
  | @pair x _ _ _ _ hbegins _ hends _ ihinside ih =>
      cases x with
      | entity name =>
          exact .entity (Part.begins?_eq_entity.mp hbegins) ihinside
            (Part.ends?_eq_entity.mp hends) ih
      | converter key =>
          exact .stays (Part.stays_of_begins? hbegins)
            (ihinside.append (.stays (Part.stays_of_ends? hends) ih))

theorem around_eq (hl : Braced l) : ∀ S, around S l = S := by
  induction hl with
  | nil => exact fun _ => rfl
  | plain hbegins hends _ ih =>
      intro S
      rw [around, List.foldl_cons, Part.enter_of_none hbegins hends]
      exact ih S
  | @pair x _ _ _ _ hbegins _ hends _ ihinside ih =>
      intro S
      have hinside : List.foldl Part.enter (x :: S) _ = x :: S := ihinside (x :: S)
      rw [around, List.foldl_cons, Part.enter_of_begins? hbegins, List.foldl_append, hinside,
        List.foldl_cons, Part.enter_of_ends? hends]
      exact ih S

end Braced

/-! ## Spans among nested marks -/

/-- The entities and converters of the stack, the innermost first, have been opened in the
list and not been closed. -/
inductive Unended : List Opened → List Part → Prop where
  | closed {l : List Part} : Braced l → Unended [] l
  | inner {S : List Opened} {x : Opened} {before inside : List Part} {opening : Part} :
      Unended S before → opening.begins? = some x → Braced inside →
      Unended (x :: S) (before ++ opening :: inside)

namespace Unended

variable {S : List Opened} {x : Opened} {l m : List Part}

theorem append (hl : Unended S l) (hm : Braced m) : Unended S (l ++ m) := by
  cases hl with
  | closed hl => exact .closed (hl.append hm)
  | inner hbefore hbegins hinside =>
      rw [List.append_assoc, List.cons_append]
      exact .inner hbefore hbegins (hinside.append hm)

theorem around_eq (hl : Unended S l) : around [] l = S := by
  induction hl with
  | closed hl => exact hl.around_eq []
  | inner _ hbegins hinside ih =>
      rw [around_append, ih, around, List.foldl_cons, Part.enter_of_begins? hbegins]
      exact hinside.around_eq _

/-- A part that closes the innermost leaves the others open. -/
theorem ending {p : Part} (hl : Unended (x :: S) l) (hp : p.ends? = some x) :
    Unended S (l ++ [p]) := by
  cases hl with
  | inner hbefore hbegins hinside =>
      rw [List.append_assoc, List.cons_append]
      exact hbefore.append (.pair hbegins hinside hp .nil)

/-- A part that closes an entity ends its span, in which everything closes. -/
theorem exists_span {name : String} {p : Part} (hl : Unended (.entity name :: S) l)
    (hp : p.closes? = some name) :
    ∃ span : Span (l ++ [p]), span.position = closings l ∧ Braced span.inside := by
  cases hl with
  | @inner _ _ before inside opening hbefore hbegins hinside =>
      have hopens := Part.begins?_eq_entity.mp hbegins
      refine ⟨⟨name, before, opening, inside, p, [], ?_, hopens, hinside.wellNested, hp⟩, ?_,
        hinside⟩
      · rw [List.append_assoc, List.cons_append]
      · rw [closings_append, closings_cons_of_none (Part.closes?_of_opens? hopens)]
        rfl

/-- One more part, at which the marks stay nested. -/
theorem concat {p : Part} {T : List Opened} (hl : Unended S l)
    (h : nestAll S p.control?.toList = some T) :
    Unended T (l ++ [p]) ∧ ∀ k, closings l ≤ k → k < closings (l ++ [p]) →
      ∃ span : Span (l ++ [p]), span.position = k ∧ Braced span.inside := by
  have hnone : p.closes? = none → ∀ k, closings l ≤ k → k < closings (l ++ [p]) →
      ∃ span : Span (l ++ [p]), span.position = k ∧ Braced span.inside := by
    intro hcloses k hle hlt
    have hzero : closings [p] = 0 := closings_cons_of_none hcloses []
    rw [closings_append, hzero] at hlt
    omega
  have hplain : p.begins? = none → p.ends? = none → Unended S (l ++ [p]) := fun hbegins hends =>
    hl.append (.plain hbegins hends .nil)
  cases hcontrol : p.control? with
  | none =>
      rw [hcontrol] at h
      cases h
      refine ⟨hplain ?_ ?_, hnone ?_⟩ <;>
        simp [Part.begins?, Part.ends?, Part.closes?, hcontrol]
  | some c =>
      rw [hcontrol, Option.toList_some, nestAll_cons] at h
      obtain ⟨T', hc, hT⟩ := Option.bind_eq_some_iff.mp h
      cases hT
      have hbegins := Part.begins?_of_control? hcontrol
      have hends := Part.ends?_of_control? hcontrol
      have hcloses : p.closes? = c.closed? := by rw [Part.closes?, hcontrol]; rfl
      rcases Control.nest_eq_some hc with ⟨name, rfl, rfl⟩ | ⟨name, rfl, rfl⟩ | ⟨key, rfl, rfl⟩ |
        ⟨key, rfl, rfl⟩ | ⟨slot, rfl, rfl⟩
      · exact ⟨.inner hl hbegins .nil, hnone hcloses⟩
      · refine ⟨hl.ending hends, fun k hle hlt => ?_⟩
        rw [closings_append, closings_cons_of_closes? hcloses] at hlt
        obtain rfl : k = closings l := Nat.le_antisymm (Nat.le_of_lt_succ hlt) hle
        exact hl.exists_span hcloses
      · exact ⟨.inner hl hbegins .nil, hnone hcloses⟩
      · exact ⟨hl.ending hends, hnone hcloses⟩
      · exact ⟨hplain hbegins hends, hnone hcloses⟩

end Unended

/-- Nested marks leave open what is on the stack, and each entity that has been closed has a
span in which everything closes. -/
theorem exists_braced_span {l : List Part} : ∀ {S : List Opened},
    nestAll [] (l.filterMap Part.control?) = some S →
      Unended S l ∧ ∀ k < closings l, ∃ span : Span l, span.position = k ∧ Braced span.inside := by
  induction l using List.reverseRecOn with
  | nil =>
      intro S h
      cases h
      exact ⟨.closed .nil, fun k hk => (Nat.not_lt_zero k hk).elim⟩
  | append_singleton l p ih =>
      intro T h
      rw [List.filterMap_append, filterMap_cons_toList, List.filterMap_nil, List.append_nil,
        nestAll_append] at h
      obtain ⟨S, hS, hT⟩ := Option.bind_eq_some_iff.mp h
      obtain ⟨hl, hspans⟩ := ih hS
      obtain ⟨hconcat, hlast⟩ := hl.concat hT
      refine ⟨hconcat, fun k hk => ?_⟩
      rcases Nat.lt_or_ge k (closings l) with hlt | hle
      · obtain ⟨span, hposition, hinside⟩ := hspans k hlt
        exact ⟨span.extend [p], hposition, hinside⟩
      · exact hlast k hle hk

theorem Span.position_lt {parts : List Part} (span : Span parts) :
    span.position < closings parts := by
  have hclosings := congrArg closings span.parts_eq_append
  rw [closings_append, closings_append _ span.after, ← Nat.add_assoc, span.closings_eq] at hclosings
  omega

/-! ## What reaches the entities around -/

/-- The parts with what is open there, if the given are open at the start.  An opening part
counts as outside of what it opens, a closing one as inside. -/
def placed : List Opened → List Part → List (Part × List Opened)
  | _, [] => []
  | S, p :: l => (p, S) :: placed (p.enter S) l

/-- The parts whose values reach an entity that is open around the list: the outermost that
stands around them, if any does, is a converter. -/
def reaching (l : List Part) : List Part :=
  ((placed [] l).filter fun q => q.2.getLast?.all Opened.isConverter).map Prod.fst

theorem placed_map_fst : ∀ (S : List Opened) (l : List Part),
    (placed S l).map Prod.fst = l
  | _, [] => rfl
  | _, p :: l => congrArg (p :: ·) (placed_map_fst _ l)

theorem placed_append (S : List Opened) (l m : List Part) :
    placed S (l ++ m) = placed S l ++ placed (around S l) m := by
  induction l generalizing S with
  | nil => rfl
  | cons p l ih => exact congrArg ((p, S) :: ·) (ih _)

section

variable {p opening closing : Part} {x : Opened} {inside l : List Part}

theorem placed_pair (hbegins : opening.begins? = some x) (hinside : Braced inside)
    (hends : closing.ends? = some x) (S : List Opened) :
    placed S (opening :: (inside ++ closing :: l))
      = (opening, S) :: (placed (x :: S) inside ++ (closing, x :: S) :: placed S l) := by
  rw [placed, Part.enter_of_begins? hbegins, placed_append, hinside.around_eq,
    placed, Part.enter_of_ends? hends]

/-- What is open at the start stays open. -/
theorem Braced.getLast?_of_mem_placed (hl : Braced l) :
    ∀ {S : List Opened}, S.getLast? = some x → ∀ q ∈ placed S l, q.2.getLast? = some x := by
  induction hl with
  | nil => exact fun _ _ hq => (List.not_mem_nil hq).elim
  | plain hbegins hends _ ih =>
      intro S hS
      rw [placed, Part.enter_of_none hbegins hends]
      exact List.forall_mem_cons.mpr ⟨hS, ih hS⟩
  | @pair y _ _ _ _ hbegins hinside hends _ ihinside ih =>
      intro S hS
      have hcons : (y :: S).getLast? = some x := by rw [List.getLast?_cons, hS]; rfl
      rw [placed_pair hbegins hinside hends]
      exact List.forall_mem_cons.mpr ⟨hS, List.forall_mem_append.mpr
        ⟨ihinside hcons, List.forall_mem_cons.mpr ⟨hcons, ih hS⟩⟩⟩

theorem reaching_plain (hbegins : p.begins? = none) (hends : p.ends? = none) :
    reaching (p :: l) = p :: reaching l := by
  rw [reaching, placed, Part.enter_of_none hbegins hends]
  rfl

theorem reaching_pair (hbegins : opening.begins? = some x) (hinside : Braced inside)
    (hends : closing.ends? = some x) :
    reaching (opening :: (inside ++ closing :: l))
      = opening :: ((if x.isConverter then inside ++ [closing] else []) ++ reaching l) := by
  have hlast : ∀ q ∈ placed [x] inside, q.2.getLast?.all Opened.isConverter = x.isConverter :=
    fun q hq => by rw [hinside.getLast?_of_mem_placed rfl q hq]; rfl
  have hclosing : ([x].getLast?).all Opened.isConverter = x.isConverter := rfl
  rw [reaching, placed_pair hbegins hinside hends, List.filter_cons_of_pos rfl,
    List.filter_append, List.filter_cons, List.filter_congr hlast]
  simp only [hclosing]
  cases x.isConverter with
  | true =>
      simp only [if_true, List.filter_true, List.map_cons, List.map_append, placed_map_fst,
        List.append_assoc, List.singleton_append]
      rfl
  | false =>
      simp only [Bool.false_eq_true, if_false, List.filter_false, List.nil_append, List.map_cons]
      rfl

/-- Where no entity opens, everything reaches the entities around. -/
theorem Braced.reaching_eq (hl : Braced l) (hopens : ∀ q ∈ l, q.opens? = none) : reaching l = l := by
  induction hl with
  | nil => rfl
  | plain hbegins hends _ ih =>
      rw [reaching_plain hbegins hends, ih (List.forall_mem_cons.mp hopens).2]
  | @pair x opening closing inside l hbegins hinside hends _ _ ih =>
      obtain ⟨hopening, hrest⟩ := List.forall_mem_cons.mp hopens
      have hlater := (List.forall_mem_cons.mp (List.forall_mem_append.mp hrest).2).2
      rw [reaching_pair hbegins hinside hends, ih hlater]
      cases x with
      | entity name =>
          rw [Part.begins?_eq_entity.mp hbegins] at hopening
          cases hopening
      | converter key =>
          simp only [Opened.isConverter, if_true, List.append_assoc, List.singleton_append]

end

end Utterance
