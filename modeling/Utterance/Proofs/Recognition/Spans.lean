import Utterance.Proofs.Recognition.Speech

/-!
# The spans of entities

An entity opens at one part of an utterance and closes at another one; the parts
in between are inside, and what opens among them closes among them
(`WellNested`).  Such a stretch is a `Span`, and its place in the order in which
entities close is its `position`.  It determines the span
(`Span.eq_of_position_eq`).

Where some entities have been closed and others are still open (`Unclosed`), the
next part that closes one ends the span of the innermost (`Unclosed.span`).

Inside a span, parts lie at different depths (`depths`): those on the outermost
level are inside no further entity, the enclosed ones are.
-/

namespace Utterance

/-! ## Parts that open and close entities -/

/-- The name of the entity that a mark opens. -/
def Control.opened? : Control → Option String
  | .beginEntity name => some name
  | _ => none

/-- The mark is one of entities and their sources. -/
def Control.isEntity : Control → Bool
  | .beginEntity _ => true
  | .endEntity _ => true
  | .source _ => true
  | _ => false

/-- The name of the entity that opens at the part. -/
def Part.opens? (p : Part) : Option String := p.control?.bind Control.opened?

/-- The name of the entity that closes at the part. -/
def Part.closes? (p : Part) : Option String := p.control?.bind Control.closed?

/-- Neither opens nor closes an entity. -/
def Part.Stays (p : Part) : Prop := p.opens? = none ∧ p.closes? = none

theorem Part.opens?_eq_some {p : Part} {name : String} :
    p.opens? = some name ↔ p.control? = some (.beginEntity name) := by
  unfold opens?
  cases p.control? with
  | none => simp
  | some c => cases c <;> simp [Control.opened?]

theorem Part.closes?_eq_some {p : Part} {name : String} :
    p.closes? = some name ↔ p.control? = some (.endEntity name) := by
  unfold closes?
  cases p.control? with
  | none => simp
  | some c => cases c <;> simp [Control.closed?]

theorem Part.closes?_of_opens? {p : Part} {name : String} (h : p.opens? = some name) :
    p.closes? = none := by
  rw [closes?, opens?_eq_some.mp h]
  rfl

theorem Part.opens?_of_closes? {p : Part} {name : String} (h : p.closes? = some name) :
    p.opens? = none := by
  rw [opens?, closes?_eq_some.mp h]
  rfl

/-! ## Nesting -/

/-- What opens in the list closes in the list, the innermost first. -/
inductive WellNested : List Part → Prop where
  | nil : WellNested []
  | stays {p : Part} {l : List Part} : p.Stays → WellNested l → WellNested (p :: l)
  | entity {name : String} {opening closing : Part} {inside l : List Part} :
      opening.opens? = some name → WellNested inside → closing.closes? = some name →
      WellNested l → WellNested (opening :: (inside ++ closing :: l))

theorem WellNested.append {l m : List Part} (hl : WellNested l) (hm : WellNested m) :
    WellNested (l ++ m) := by
  induction hl with
  | nil => exact hm
  | stays hp _ ih => exact .stays hp ih
  | entity hopens hinside hcloses _ _ ih =>
      rw [List.cons_append, List.append_assoc]
      exact .entity hopens hinside hcloses ih

theorem WellNested.single {p : Part} (hp : p.Stays) : WellNested [p] := .stays hp .nil

/-- So many entities close in the list. -/
def closings (l : List Part) : Nat := (l.filterMap Part.closes?).length

theorem closings_append (l m : List Part) : closings (l ++ m) = closings l + closings m := by
  rw [closings, List.filterMap_append, List.length_append]
  rfl

theorem closings_cons_of_closes? {p : Part} {name : String} (hp : p.closes? = some name)
    (l : List Part) : closings (p :: l) = closings l + 1 := by
  rw [closings, List.filterMap_cons_some hp]
  rfl

theorem closings_cons_of_none {p : Part} (hp : p.closes? = none) (l : List Part) :
    closings (p :: l) = closings l := by
  rw [closings, List.filterMap_cons_none hp]
  rfl

/-- So many entities open in the list. -/
def openings (l : List Part) : Nat := (l.filterMap Part.opens?).length

theorem openings_append (l m : List Part) : openings (l ++ m) = openings l + openings m := by
  rw [openings, List.filterMap_append, List.length_append]
  rfl

theorem openings_cons_of_opens? {p : Part} {name : String} (hp : p.opens? = some name)
    (l : List Part) : openings (p :: l) = openings l + 1 := by
  rw [openings, List.filterMap_cons_some hp]
  rfl

theorem openings_cons_of_none {p : Part} (hp : p.opens? = none) (l : List Part) :
    openings (p :: l) = openings l := by
  rw [openings, List.filterMap_cons_none hp]
  rfl

theorem WellNested.openings_eq {l : List Part} (hl : WellNested l) : openings l = closings l := by
  induction hl with
  | nil => rfl
  | stays hp _ ih => rw [openings_cons_of_none hp.1, closings_cons_of_none hp.2, ih]
  | entity hopens _ hcloses _ ihinside ih =>
      rw [openings_cons_of_opens? hopens, openings_append,
        openings_cons_of_none (Part.opens?_of_closes? hcloses), ihinside, ih,
        closings_cons_of_none (Part.closes?_of_opens? hopens), closings_append,
        closings_cons_of_closes? hcloses]
      omega

/-- What opens in the last parts closes there. -/
theorem WellNested.openings_le {l : List Part} (hl : WellNested l) :
    ∀ {m n : List Part}, l = m ++ n → openings n ≤ closings n := by
  induction hl with
  | nil =>
      intro m n heq
      rw [(List.append_eq_nil_iff.mp heq.symm).2]
      exact Nat.le_refl _
  | stays hp hrest ih =>
      intro m n heq
      rcases List.cons_eq_append_iff.mp heq with ⟨-, rfl⟩ | ⟨m', -, heq⟩
      · exact Nat.le_of_eq (WellNested.stays hp hrest).openings_eq
      · exact ih heq
  | entity hopens hinside hcloses hrest ihinside ih =>
      intro m n heq
      rcases List.cons_eq_append_iff.mp heq with ⟨-, rfl⟩ | ⟨m', -, heq⟩
      · exact Nat.le_of_eq (WellNested.entity hopens hinside hcloses hrest).openings_eq
      rcases List.append_eq_append_iff.mp heq with ⟨k, -, heq⟩ | ⟨k, hk, rfl⟩
      · rcases List.cons_eq_append_iff.mp heq with ⟨-, rfl⟩ | ⟨k', -, heq⟩
        · rw [openings_cons_of_none (Part.opens?_of_closes? hcloses),
            closings_cons_of_closes? hcloses, hrest.openings_eq]
          exact Nat.le_succ _
        · exact ih heq
      · rw [openings_append, closings_append, closings_cons_of_closes? hcloses,
          openings_cons_of_none (Part.opens?_of_closes? hcloses), hrest.openings_eq]
        exact Nat.add_le_add (ihinside hk) (Nat.le_succ _)

section

variable {p p' : Part} {name name' : String} {l l' m m' : List Part}

/-- Of two places in a list one is first, or they are the same. -/
theorem append_cons_cases (h : l ++ p :: m = l' ++ p' :: m') :
    (l = l' ∧ p = p' ∧ m = m') ∨ (∃ n, l' = l ++ p :: n ∧ m = n ++ p' :: m') ∨
      ∃ n, l = l' ++ p' :: n ∧ m' = n ++ p :: m := by
  rcases List.append_eq_append_iff.mp h with ⟨k, rfl, heq⟩ | ⟨k, rfl, heq⟩ <;>
    rcases List.cons_eq_append_iff.mp heq with ⟨rfl, heq⟩ | ⟨n, rfl, rfl⟩
  · obtain ⟨rfl, rfl⟩ := List.cons.inj heq
    exact .inl ⟨(List.append_nil l).symm, rfl, rfl⟩
  · exact .inr (.inl ⟨n, rfl, rfl⟩)
  · obtain ⟨rfl, rfl⟩ := List.cons.inj heq
    exact .inl ⟨List.append_nil l', rfl, rfl⟩
  · exact .inr (.inr ⟨n, rfl, rfl⟩)

/-- A part that closes an entity is known by how many close before it. -/
theorem append_closing_inj (hp : p.closes? = some name) (hp' : p'.closes? = some name')
    (h : l ++ p :: m = l' ++ p' :: m') (hclosings : closings l = closings l') :
    l = l' ∧ p = p' ∧ m = m' := by
  rcases append_cons_cases h with heq | ⟨n, rfl, -⟩ | ⟨n, rfl, -⟩
  · exact heq
  · rw [closings_append, closings_cons_of_closes? hp] at hclosings
    omega
  · rw [closings_append, closings_cons_of_closes? hp'] at hclosings
    omega

/-- A part that opens an entity is known by what is nested after it. -/
theorem append_opening_inj (hp : p.opens? = some name) (hp' : p'.opens? = some name')
    (hm : WellNested m) (hm' : WellNested m') (h : l ++ p :: m = l' ++ p' :: m') :
    l = l' ∧ p = p' ∧ m = m' := by
  have hunclosed : ∀ {q : Part} {s : String} {n k : List Part}, q.opens? = some s →
      WellNested n → ¬ WellNested (k ++ q :: n) := by
    intro q s n k hq hn hk
    have hle := hk.openings_le rfl
    rw [openings_cons_of_opens? hq, closings_cons_of_none (Part.closes?_of_opens? hq),
      hn.openings_eq] at hle
    omega
  rcases append_cons_cases h with heq | ⟨n, -, rfl⟩ | ⟨n, -, rfl⟩
  · exact heq
  · exact (hunclosed hp' hm' hm).elim
  · exact (hunclosed hp hm hm').elim

end

/-! ## Spans -/

/-- A stretch of parts over which one entity is open. -/
structure Span (parts : List Part) where
  name : String
  before : List Part
  opening : Part
  inside : List Part
  closing : Part
  after : List Part
  parts_eq : parts = before ++ opening :: (inside ++ closing :: after)
  opens : opening.opens? = some name
  nested : WellNested inside
  closes : closing.closes? = some name

namespace Span

variable {parts : List Part}

/-- How many entities close before this one does. -/
def position (span : Span parts) : Nat := closings span.before + closings span.inside

theorem parts_eq_append (span : Span parts) : parts =
    (span.before ++ [span.opening]) ++ ((span.inside ++ [span.closing]) ++ span.after) := by
  refine span.parts_eq.trans ?_
  simp only [List.append_assoc, List.singleton_append]

theorem closings_eq (span : Span parts) : closings (span.before ++ [span.opening])
    + closings (span.inside ++ [span.closing]) = span.position + 1 := by
  have hnil : closings [] = 0 := rfl
  rw [closings_append, closings_append, closings_cons_of_none (Part.closes?_of_opens? span.opens),
    closings_cons_of_closes? span.closes, hnil, position]
  omega

/-- More parts may follow. -/
def extend (span : Span parts) (more : List Part) : Span (parts ++ more) where
  name := span.name
  before := span.before
  opening := span.opening
  inside := span.inside
  closing := span.closing
  after := span.after ++ more
  parts_eq := by simp [span.parts_eq]
  opens := span.opens
  nested := span.nested
  closes := span.closes

/-- No two entities close at the same position. -/
theorem eq_of_position_eq {span span' : Span parts} (h : span.position = span'.position) :
    span = span' := by
  obtain ⟨name, before, opening, inside, closing, after, rfl, hopens, hnested, hcloses⟩ := span
  obtain ⟨name', before', opening', inside', closing', after', heq, hopens', hnested', hcloses'⟩ :=
    span'
  have hclosings : closings (before ++ opening :: inside)
      = closings (before' ++ opening' :: inside') := by
    rw [closings_append, closings_append, closings_cons_of_none (Part.closes?_of_opens? hopens),
      closings_cons_of_none (Part.closes?_of_opens? hopens')]
    exact h
  have hparts : (before ++ opening :: inside) ++ closing :: after
      = (before' ++ opening' :: inside') ++ closing' :: after' := by
    simpa only [List.append_assoc, List.cons_append] using heq
  obtain ⟨hopened, rfl, rfl⟩ := append_closing_inj hcloses hcloses' hparts hclosings
  obtain ⟨rfl, rfl, rfl⟩ := append_opening_inj hopens hopens' hnested hnested' hopened
  obtain rfl : name = name' := Option.some.inj (hopens.symm.trans hopens')
  rfl

end Span

/-! ## Entities that are still open -/

/-- The entities of these names, the innermost first, have been opened in the list and
not been closed. -/
inductive Unclosed : List String → List Part → Prop where
  | none {l : List Part} : WellNested l → Unclosed [] l
  | inner {names : List String} {name : String} {before inside : List Part} {opening : Part} :
      Unclosed names before → opening.opens? = some name → WellNested inside →
      Unclosed (name :: names) (before ++ opening :: inside)

namespace Unclosed

variable {names : List String} {name : String} {l m : List Part}

theorem append (hl : Unclosed names l) (hm : WellNested m) : Unclosed names (l ++ m) := by
  cases hl with
  | none hl => exact .none (hl.append hm)
  | inner hbefore hopens hinside =>
      rw [List.append_assoc, List.cons_append]
      exact .inner hbefore hopens (hinside.append hm)

theorem opening {p : Part} (hl : Unclosed names l) (hp : p.opens? = some name) :
    Unclosed (name :: names) (l ++ [p]) := .inner hl hp .nil

/-- A part that closes an entity ends the span of the innermost one. -/
theorem span {p : Part} (hl : Unclosed (name :: names) l) (hp : p.closes? = some name) :
    Unclosed names (l ++ [p]) ∧ ∃ span : Span (l ++ [p]), span.position = closings l := by
  cases hl with
  | @inner _ _ before inside opening hbefore hopens hinside =>
      refine ⟨?_, ⟨name, before, opening, inside, p, [], ?_, hopens, hinside, hp⟩, ?_⟩
      · rw [List.append_assoc, List.cons_append]
        exact hbefore.append (.entity hopens hinside hp .nil)
      · rw [List.append_assoc, List.cons_append]
      · rw [closings_append, closings_cons_of_none (Part.closes?_of_opens? hopens)]
        rfl

end Unclosed

/-! ## Depths -/

/-- The parts with the number of entities that are open there, if it is `n` at the
start.  An opening part counts as outside of its entity, a closing one as inside. -/
def depths : Nat → List Part → List (Part × Nat)
  | _, [] => []
  | n, p :: l =>
    (p, n) :: depths (if p.opens?.isSome then n + 1 else if p.closes?.isSome then n - 1 else n) l

/-- The parts that are inside no entity that opens in the list. -/
def outermost (l : List Part) : List Part :=
  ((depths 0 l).filter fun q => q.2 == 0).map Prod.fst

/-- The parts that are inside an entity that opens in the list. -/
def enclosed (l : List Part) : List Part :=
  ((depths 0 l).filter fun q => q.2 != 0).map Prod.fst

theorem depths_map_fst : ∀ (n : Nat) (l : List Part), (depths n l).map Prod.fst = l
  | _, [] => rfl
  | _, p :: l => congrArg (p :: ·) (depths_map_fst _ l)

section

variable {p : Part} {name : String} {l m : List Part}

theorem depths_cons_of_stays (hp : p.Stays) (n : Nat) :
    depths n (p :: l) = (p, n) :: depths n l := by
  rw [depths, hp.1, hp.2]
  rfl

theorem depths_cons_of_opens? (hp : p.opens? = some name) (n : Nat) :
    depths n (p :: l) = (p, n) :: depths (n + 1) l := by
  rw [depths, hp]
  rfl

theorem depths_cons_of_closes? (hp : p.closes? = some name) (n : Nat) :
    depths (n + 1) (p :: l) = (p, n + 1) :: depths n l := by
  rw [depths, Part.opens?_of_closes? hp, hp]
  rfl

/-- After nested parts the depth is what it was. -/
theorem WellNested.depths_append (hl : WellNested l) :
    ∀ (n : Nat) (m : List Part), depths n (l ++ m) = depths n l ++ depths n m := by
  induction hl with
  | nil => exact fun _ _ => rfl
  | stays hp _ ih =>
      intro n m
      rw [List.cons_append, depths_cons_of_stays hp, depths_cons_of_stays hp, ih]
      rfl
  | entity hopens _ hcloses _ ihinside ih =>
      intro n m
      rw [List.cons_append, List.append_assoc, List.cons_append, depths_cons_of_opens? hopens,
        depths_cons_of_opens? hopens, ihinside, ihinside, depths_cons_of_closes? hcloses,
        depths_cons_of_closes? hcloses, ih]
      simp

/-- No nested part lies less deep than the first one. -/
theorem WellNested.le_of_mem_depths (hl : WellNested l) :
    ∀ (n : Nat), ∀ q ∈ depths n l, n ≤ q.2 := by
  induction hl with
  | nil => exact fun _ _ hq => (List.not_mem_nil hq).elim
  | stays hp _ ih =>
      intro n
      rw [depths_cons_of_stays hp]
      exact List.forall_mem_cons.mpr ⟨Nat.le_refl n, ih n⟩
  | entity hopens hinside hcloses _ ihinside ih =>
      intro n
      rw [depths_cons_of_opens? hopens, hinside.depths_append, depths_cons_of_closes? hcloses]
      refine List.forall_mem_cons.mpr ⟨Nat.le_refl n, List.forall_mem_append.mpr ⟨?_, ?_⟩⟩
      · exact fun q hq => Nat.le_of_succ_le (ihinside (n + 1) q hq)
      · exact List.forall_mem_cons.mpr ⟨Nat.le_succ n, ih n⟩

theorem outermost_cons_of_stays (hp : p.Stays) : outermost (p :: l) = p :: outermost l := by
  rw [outermost, depths_cons_of_stays hp]
  rfl

/-- Of an entity the opening part alone is on the outermost level. -/
theorem outermost_entity {opening closing : Part} {inside : List Part}
    (hopens : opening.opens? = some name) (hinside : WellNested inside)
    (hcloses : closing.closes? = some name) :
    outermost (opening :: (inside ++ closing :: l)) = opening :: outermost l := by
  have hdeep : (depths 1 inside).filter (fun q => q.2 == 0) = [] :=
    List.filter_eq_nil_iff.mpr fun q hq => by
      have hle := hinside.le_of_mem_depths 1 q hq
      simp only [beq_iff_eq]
      omega
  rw [outermost, depths_cons_of_opens? hopens, hinside.depths_append,
    depths_cons_of_closes? hcloses, List.filter_cons_of_pos rfl, List.filter_append, hdeep]
  rfl

/-- Where nothing opens, everything is on the outermost level. -/
theorem WellNested.outermost_eq (hl : WellNested l) (hopens : ∀ q ∈ l, q.opens? = none) :
    outermost l = l := by
  induction hl with
  | nil => rfl
  | stays hp _ ih =>
      rw [outermost_cons_of_stays hp, ih (List.forall_mem_cons.mp hopens).2]
  | entity hp =>
      rw [(List.forall_mem_cons.mp hopens).1] at hp
      cases hp

end

end Utterance
