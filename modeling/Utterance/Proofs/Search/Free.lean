import Mathlib.Tactic.NormNum
import Utterance.Proofs.Decimal.Positive
import Utterance.Proofs.Search.Cheapest

/-!
# Matches that cost nothing

Costs that are added up in floating point round, but they tell nothing from
something: zeros add up to zero, and a sum with a positive number in it is positive
(`Cost.Lawful`).  For all such costs the matches of an intent in a table that cost
nothing are those that were added at no cost, in that order (`Sorted.add`):
what costs something neither drops nor joins them.  And if there are any, they are
the best of the table (`Sorted.best_eq`).
-/

namespace Utterance

namespace Cost

/-- Some costs are positive, and adding and comparing tell these from zero. -/
class Lawful (κ : Type) [Cost κ] where
  Positive : κ → Prop
  tenth : Positive (Cost.tenth : κ)
  ofNat : ∀ n : Nat, 0 < n → Positive (Cost.ofNat n : κ)
  add : ∀ {x y : κ}, Positive x → Positive y → Positive (Cost.add x y)
  add_zero : ∀ {x : κ}, Positive x → Positive (Cost.add x (Cost.ofNat 0))
  zero_add : ∀ {x : κ}, Positive x → Positive (Cost.add (Cost.ofNat 0) x)
  zero : Cost.add (Cost.ofNat 0 : κ) (Cost.ofNat 0) = Cost.ofNat 0
  equal_zero : Cost.equal (Cost.ofNat 0 : κ) (Cost.ofNat 0) = true
  less_zero : Cost.less (Cost.ofNat 0 : κ) (Cost.ofNat 0) = false
  zero_less : ∀ {x : κ}, Positive x → Cost.less (Cost.ofNat 0) x = true
  less_zero_of_pos : ∀ {x : κ}, Positive x → Cost.less x (Cost.ofNat 0) = false
  equal_zero_of_pos : ∀ {x : κ}, Positive x → Cost.equal x (Cost.ofNat 0) = false
  zero_equal_of_pos : ∀ {x : κ}, Positive x → Cost.equal (Cost.ofNat 0) x = false

instance : Lawful Float where
  Positive := Decimal.Positive
  tenth := Decimal.positive_tenth
  ofNat _ := Decimal.positive_ofNat
  add := Decimal.Positive.add
  add_zero h := (congrArg Decimal.Positive h.add_zero).mpr h
  zero_add h := (congrArg Decimal.Positive h.zero_add).mpr h
  zero := rfl
  equal_zero := rfl
  less_zero := rfl
  zero_less h := decide_eq_true h.zero_lt
  less_zero_of_pos h := decide_eq_false h.not_lt_zero
  equal_zero_of_pos h := h.beq_zero
  zero_equal_of_pos h := h.zero_beq

instance : Lawful ℚ where
  Positive x := 0 < x
  tenth := by norm_num
  ofNat n hn := by simpa using hn
  add hx hy := by simpa using add_pos hx hy
  add_zero hx := by simpa using hx
  zero_add hx := by simpa using hx
  zero := by simp
  equal_zero := by simp
  less_zero := by simp
  zero_less hx := by simpa using hx
  less_zero_of_pos hx := by simpa using hx.le
  equal_zero_of_pos hx := by simpa using hx.ne'
  zero_equal_of_pos hx := by simpa using hx.ne

section

variable {κ : Type} [Cost κ]

/-- The cost is nothing. -/
def free (x : κ) : Bool := Cost.equal x (Cost.ofNat 0)

variable [Lawful κ] {x y : κ}

/-- The cost is nothing or positive, as all sums of costs are. -/
def Nonneg (x : κ) : Prop := x = Cost.ofNat 0 ∨ Lawful.Positive x

theorem free_iff (hx : Nonneg x) : free x = true ↔ x = Cost.ofNat 0 := by
  rcases hx with rfl | hx
  · exact iff_of_true Lawful.equal_zero rfl
  · have hfree : free x = false := Lawful.equal_zero_of_pos hx
    refine iff_of_false (by rw [hfree]; exact Bool.false_ne_true) ?_
    rintro rfl
    rw [free, Lawful.equal_zero] at hfree
    cases hfree

theorem free_zero : free (Cost.ofNat 0 : κ) = true := Lawful.equal_zero

theorem not_free_of_pos (hx : Lawful.Positive x) : free x = false := Lawful.equal_zero_of_pos hx

theorem nonneg_ofNat (n : Nat) : Nonneg (Cost.ofNat n : κ) := by
  rcases Nat.eq_zero_or_pos n with rfl | hn
  · exact .inl rfl
  · exact .inr (Lawful.ofNat n hn)

theorem Nonneg.add (hx : Nonneg x) (hy : Nonneg y) : Nonneg (Cost.add x y) := by
  rcases hx with rfl | hx <;> rcases hy with rfl | hy
  · exact .inl Lawful.zero
  · exact .inr (Lawful.zero_add hy)
  · exact .inr (Lawful.add_zero hx)
  · exact .inr (Lawful.add hx hy)

/-- A sum is free if both sides are. -/
theorem free_add (hx : Nonneg x) (hy : Nonneg y) : free (Cost.add x y) = (free x && free y) := by
  rcases hx with rfl | hx <;> rcases hy with rfl | hy
  · rw [Lawful.zero, free_zero]
    rfl
  · rw [not_free_of_pos (Lawful.zero_add hy), not_free_of_pos hy, Bool.and_false]
  · rw [not_free_of_pos (Lawful.add_zero hx), not_free_of_pos hx, Bool.false_and]
  · rw [not_free_of_pos (Lawful.add hx hy), not_free_of_pos hx, Bool.false_and]

theorem free_ofNat (n : Nat) : free (Cost.ofNat n : κ) = decide (n = 0) := by
  rcases Nat.eq_zero_or_pos n with rfl | hn
  · exact free_zero
  · rw [not_free_of_pos (Lawful.ofNat n hn), decide_eq_false hn.ne']

theorem less_zero_eq_false (hx : Nonneg x) : Cost.less x (Cost.ofNat 0) = false := by
  rcases hx with rfl | hx
  · exact Lawful.less_zero
  · exact Lawful.less_zero_of_pos hx

theorem zero_less_ofNat (n : Nat) :
    Cost.less (Cost.ofNat 0 : κ) (Cost.ofNat n) = decide (0 < n) := by
  rcases Nat.eq_zero_or_pos n with rfl | hn
  · exact Lawful.less_zero
  · rw [Lawful.zero_less (Lawful.ofNat n hn), decide_eq_true hn]

end

end Cost

variable {κ : Type} [Cost κ]

/-- The matches that cost nothing. -/
def freeOnes (l : List (TolerantMatch κ)) : List (TolerantMatch κ) :=
  l.filter fun m => Cost.free m.cost

variable [Cost.Lawful κ]

/-! ## What is kept for an intent -/

/-- What is kept for an intent: some matches of it, which all cost nothing or all
cost something. -/
structure Kept (intent : String) (kept : List (TolerantMatch κ)) : Prop where
  ne : kept ≠ []
  intent_eq : ∀ m ∈ kept, m.intent = intent
  nonneg : ∀ m ∈ kept, Cost.Nonneg m.cost
  alike : ∀ m ∈ kept, ∀ n ∈ kept, Cost.free m.cost = Cost.free n.cost

variable {m : TolerantMatch κ} {intent : String} {kept : List (TolerantMatch κ)}

theorem kept_singleton (hm : Cost.Nonneg m.cost) : Kept m.intent [m] where
  ne := List.cons_ne_nil _ _
  intent_eq := by simp
  nonneg := by simpa using hm
  alike := by simp

/-- All that is kept costs nothing, or nothing of it does. -/
theorem Kept.freeOnes_eq (h : Kept intent kept) :
    freeOnes kept = if kept.head?.any (Cost.free ·.cost) then kept else [] := by
  obtain ⟨first, rest, rfl⟩ := List.exists_cons_of_ne_nil h.ne
  rw [List.head?_cons, Option.any_some]
  split
  next hfirst =>
    refine List.filter_eq_self.mpr fun m hm => ?_
    rw [h.alike m hm first List.mem_cons_self, hfirst]
  next hfirst =>
    refine List.filter_eq_nil_iff.mpr fun m hm => ?_
    rw [h.alike m hm first List.mem_cons_self]
    exact hfirst

theorem Kept.append (h : Kept m.intent kept) (hm : Cost.Nonneg m.cost)
    (halike : ∀ n ∈ kept, Cost.free n.cost = Cost.free m.cost) : Kept m.intent (kept ++ [m]) where
  ne := List.append_ne_nil_of_right_ne_nil _ (List.cons_ne_nil _ _)
  intent_eq := by
    rw [List.forall_mem_append]
    exact ⟨h.intent_eq, (kept_singleton hm).intent_eq⟩
  nonneg := by
    rw [List.forall_mem_append]
    exact ⟨h.nonneg, (kept_singleton hm).nonneg⟩
  alike := by
    have hall : ∀ n ∈ kept ++ [m], Cost.free n.cost = Cost.free m.cost := by
      rw [List.forall_mem_append, List.forall_mem_singleton]
      exact ⟨halike, rfl⟩
    exact fun n hn k hk => (hall n hn).trans (hall k hk).symm

/-- A match that costs something neither drops what costs nothing nor joins it, and
one that costs nothing drops only what costs something. -/
theorem Kept.keepCheapest (h : Kept m.intent kept) (hm : Cost.Nonneg m.cost) :
    Kept m.intent (keepCheapest m kept) ∧
      freeOnes (Utterance.keepCheapest m kept) = freeOnes kept ++ freeOnes [m] := by
  obtain ⟨first, rest, rfl⟩ := List.exists_cons_of_ne_nil h.ne
  have hall : ∀ n ∈ first :: rest, Cost.free n.cost = Cost.free first.cost := fun n hn =>
    h.alike n hn first List.mem_cons_self
  have hkept := h.freeOnes_eq
  rw [List.head?_cons, Option.any_some] at hkept
  rw [Utterance.keepCheapest]
  rcases hm with hm | hm <;> rcases h.nonneg first List.mem_cons_self with hfirst | hfirst
  · rw [hm, hfirst, Cost.Lawful.less_zero, if_neg Bool.false_ne_true, Cost.Lawful.equal_zero,
      if_pos rfl]
    exact ⟨h.append (.inl hm) (by rwa [hm, ← hfirst]), List.filter_append ..⟩
  · rw [hm, Cost.Lawful.less_zero_of_pos hfirst, if_neg Bool.false_ne_true,
      Cost.Lawful.zero_equal_of_pos hfirst, if_neg Bool.false_ne_true, hkept,
      Cost.not_free_of_pos hfirst, if_neg Bool.false_ne_true]
    exact ⟨kept_singleton (.inl hm), rfl⟩
  · rw [hfirst, Cost.Lawful.zero_less hm, if_pos rfl]
    have hnone : freeOnes [m] = [] := by simp [freeOnes, Cost.not_free_of_pos hm]
    exact ⟨h, by rw [hnone, List.append_nil]⟩
  · have hnone : freeOnes [m] = [] := by simp [freeOnes, Cost.not_free_of_pos hm]
    rw [Cost.not_free_of_pos hfirst, if_neg Bool.false_ne_true] at hkept
    rw [hkept, hnone, List.append_nil]
    split
    next => exact ⟨h, hkept⟩
    next =>
      split
      next =>
        refine ⟨h.append (.inr hm) fun n hn => ?_, ?_⟩
        · rw [hall n hn, Cost.not_free_of_pos hfirst, Cost.not_free_of_pos hm]
        · rw [freeOnes, List.filter_append, ← freeOnes, ← freeOnes, hkept, hnone]
          rfl
      next => exact ⟨kept_singleton (.inr hm), hnone⟩

/-! ## The table of all intents -/

namespace TolerantMatches

variable {ms : TolerantMatches κ}

/-- The names of the intents ascend, and something is kept for each. -/
structure Sorted (ms : TolerantMatches κ) : Prop where
  ascends : (ms.map Prod.fst).Pairwise (· < ·)
  kept : ∀ q ∈ ms, Kept q.1 q.2

theorem sorted_nil : Sorted ([] : TolerantMatches κ) :=
  ⟨List.Pairwise.nil, fun _ hq => (List.not_mem_nil hq).elim⟩

theorem Sorted.of_cons {name : String} {kept : List (TolerantMatch κ)} {rest : TolerantMatches κ}
    (h : Sorted ((name, kept) :: rest)) :
    Kept name kept ∧ (∀ q ∈ rest, name < q.1) ∧ Sorted rest := by
  obtain ⟨hfirst, hrest⟩ := List.pairwise_cons.mp h.ascends
  exact ⟨h.kept _ List.mem_cons_self, fun q hq => hfirst q.1 (List.mem_map_of_mem hq), hrest,
    fun q hq => h.kept q (List.mem_cons_of_mem _ hq)⟩

theorem Sorted.cons {name : String} {kept : List (TolerantMatch κ)} {rest : TolerantMatches κ}
    (hkept : Kept name kept) (hlater : ∀ q ∈ rest, name < q.1) (hrest : Sorted rest) :
    Sorted ((name, kept) :: rest) where
  ascends := List.pairwise_cons.mpr ⟨List.forall_mem_map.mpr hlater, hrest.ascends⟩
  kept := List.forall_mem_cons.mpr ⟨hkept, hrest.kept⟩

/-- The matches for an intent that cost nothing. -/
def freeFor (intent : String) (ms : TolerantMatches κ) : List (TolerantMatch κ) :=
  (freeOnes (ms.flatMap Prod.snd)).filter (·.intent == intent)

omit [Cost.Lawful κ] in
theorem freeFor_cons (q : String × List (TolerantMatch κ)) (ms : TolerantMatches κ) :
    freeFor intent (q :: ms) = (freeOnes q.2).filter (·.intent == intent) ++ freeFor intent ms := by
  rw [freeFor, freeOnes, List.flatMap_cons, List.filter_append, List.filter_append]
  rfl

theorem Kept.filter_eq_nil {name : String} (h : Kept name kept) (hne : name ≠ intent) :
    (freeOnes kept).filter (·.intent == intent) = [] := by
  refine List.filter_eq_nil_iff.mpr fun m hm => ?_
  rw [h.intent_eq m (List.mem_filter.mp hm).1, beq_iff_eq]
  exact hne

theorem Sorted.freeFor_eq_nil : ∀ {ms : TolerantMatches κ}, ms.Sorted →
    (∀ q ∈ ms, q.1 ≠ intent) → freeFor intent ms = []
  | [], _, _ => rfl
  | q :: ms, h, hne => by
      obtain ⟨hkept, -, hrest⟩ := h.of_cons
      obtain ⟨hq, hms⟩ := List.forall_mem_cons.mp hne
      rw [freeFor_cons, Kept.filter_eq_nil hkept hq, hrest.freeFor_eq_nil hms, List.append_nil]

/-- A match is added to those of its intent. -/
theorem Sorted.add (hm : Cost.Nonneg m.cost) : ∀ {ms : TolerantMatches κ}, ms.Sorted →
    (ms.add m).Sorted ∧ (∀ q ∈ ms.add m, q.1 = m.intent ∨ q.1 ∈ ms.map Prod.fst) ∧
      ∀ intent, freeFor intent (ms.add m) =
        freeFor intent ms ++ (freeOnes [m]).filter (·.intent == intent)
  | [], _ => by
      refine ⟨.cons (kept_singleton hm) (fun _ hq => (List.not_mem_nil hq).elim) sorted_nil, ?_, ?_⟩
      · exact List.forall_mem_singleton.mpr (.inl rfl)
      · intro intent
        rw [TolerantMatches.add, freeFor_cons]
        exact List.append_nil _
  | (name, kept) :: rest, h => by
      obtain ⟨hkept, hlater, hrest⟩ := h.of_cons
      have hnew := kept_singleton hm
      unfold TolerantMatches.add
      split
      next hlt =>
        have hall : ∀ q ∈ (name, kept) :: rest, m.intent < q.1 :=
          List.forall_mem_cons.mpr ⟨hlt, fun q hq => hlt.trans (hlater q hq)⟩
        refine ⟨.cons hnew hall h, ?_, fun intent => ?_⟩
        · exact List.forall_mem_cons.mpr ⟨.inl rfl, fun q hq => .inr (List.mem_map_of_mem hq)⟩
        · rw [freeFor_cons]
          by_cases hintent : m.intent = intent
          · rw [h.freeFor_eq_nil fun q hq => (hintent ▸ hall q hq).ne', List.append_nil,
              List.nil_append]
          · rw [Kept.filter_eq_nil hnew hintent, List.append_nil, List.nil_append]
      next =>
        split
        next heq =>
          obtain rfl := eq_of_beq heq
          obtain ⟨hsame, hfree⟩ := hkept.keepCheapest hm
          refine ⟨.cons hsame hlater hrest, ?_, fun intent => ?_⟩
          · exact List.forall_mem_cons.mpr ⟨.inl rfl, fun q hq =>
              .inr (List.mem_cons_of_mem _ (List.mem_map_of_mem hq))⟩
          · rw [freeFor_cons, freeFor_cons, hfree, List.filter_append]
            by_cases hintent : m.intent = intent
            · rw [hrest.freeFor_eq_nil fun q hq => (hintent ▸ hlater q hq).ne', List.append_nil,
                List.append_nil]
            · rw [Kept.filter_eq_nil hkept hintent, Kept.filter_eq_nil hnew hintent,
                List.append_nil, List.append_nil]
        next hnlt hne =>
          obtain ⟨hsorted, hnames, hfree⟩ := hrest.add hm
          have hlt : name < m.intent :=
            lt_of_le_of_ne (not_lt.mp hnlt) fun heq => hne (beq_iff_eq.mpr heq.symm)
          refine ⟨.cons hkept (fun q hq => ?_) hsorted, ?_, fun intent => ?_⟩
          · rcases hnames q hq with heq | hmem
            · exact heq ▸ hlt
            · obtain ⟨r, hr, heq⟩ := List.mem_map.mp hmem
              exact heq ▸ hlater r hr
          · refine List.forall_mem_cons.mpr ⟨.inr List.mem_cons_self, fun q hq => ?_⟩
            exact (hnames q hq).imp_right (List.mem_cons_of_mem _)
          · rw [freeFor_cons, freeFor_cons, hfree, List.append_assoc]

/-! ## The best of the table -/

/-- The least of some costs is zero if this is one of them. -/
theorem foldl_some_zero {f : Option κ → κ → Option κ}
    (hf : ∀ x y, f (some x) y = some (if Cost.less y x then y else x)) :
    ∀ {costs : List κ} {x : κ}, (∀ y ∈ x :: costs, Cost.Nonneg y) → Cost.ofNat 0 ∈ x :: costs →
      costs.foldl f (some x) = some (Cost.ofNat 0)
  | [], x, _, hmem => by rw [List.foldl_nil, List.mem_singleton.mp hmem]
  | y :: costs, x, hall, hmem => by
      obtain ⟨hx, hrest⟩ := List.forall_mem_cons.mp hall
      obtain ⟨hy, hcosts⟩ := List.forall_mem_cons.mp hrest
      rw [List.foldl_cons, hf]
      refine foldl_some_zero hf (List.forall_mem_cons.mpr ⟨?_, hcosts⟩) ?_
      · split
        · exact hy
        · exact hx
      · rcases List.mem_cons.mp hmem with rfl | hmem
        · rw [Cost.less_zero_eq_false hy, if_neg Bool.false_ne_true]
          exact List.mem_cons_self
        · rcases List.mem_cons.mp hmem with rfl | hmem
          · rcases hx with rfl | hx
            · rw [ite_self]
              exact List.mem_cons_self
            · rw [Cost.Lawful.zero_less hx, if_pos rfl]
              exact List.mem_cons_self
          · exact List.mem_cons_of_mem _ hmem

theorem Sorted.least?_eq (h : ms.Sorted) (hfree : freeOnes (ms.flatMap Prod.snd) ≠ []) :
    ms.least? = some (Cost.ofNat 0) := by
  have hnonneg : ∀ x ∈ ms.filterMap (fun q => q.2.head?.map TolerantMatch.cost),
      Cost.Nonneg x := by
    intro x hx
    obtain ⟨q, hq, hhead⟩ := List.mem_filterMap.mp hx
    obtain ⟨m, hm, rfl⟩ := Option.map_eq_some_iff.mp hhead
    exact (h.kept q hq).nonneg m (List.mem_of_mem_head? hm)
  have hzero : Cost.ofNat 0 ∈ ms.filterMap (fun q => q.2.head?.map TolerantMatch.cost) := by
    obtain ⟨m, hm⟩ := List.exists_mem_of_ne_nil _ hfree
    obtain ⟨hm, hfree⟩ := List.mem_filter.mp hm
    obtain ⟨q, hq, hm⟩ := List.mem_flatMap.mp hm
    have hkept := h.kept q hq
    obtain ⟨first, rest, hfirst⟩ := List.exists_cons_of_ne_nil hkept.ne
    have hmem : first ∈ q.2 := hfirst ▸ List.mem_cons_self
    have hcost : first.cost = Cost.ofNat 0 := by
      rw [← Cost.free_iff (hkept.nonneg first hmem), hkept.alike first hmem m hm, hfree]
    exact List.mem_filterMap.mpr ⟨q, hq, by rw [hfirst, List.head?_cons, Option.map_some, hcost]⟩
  unfold least?
  change List.foldl _ none (ms.filterMap fun q => q.2.head?.map TolerantMatch.cost) = _
  cases hcosts : ms.filterMap (fun q => q.2.head?.map TolerantMatch.cost) with
  | nil =>
      rw [hcosts] at hzero
      exact (List.not_mem_nil hzero).elim
  | cons x costs =>
      rw [hcosts] at hnonneg hzero
      exact foldl_some_zero (fun _ _ => rfl) hnonneg hzero

/-- The entries that begin with a match that costs nothing hold all of these matches. -/
theorem flatMap_filter_free (h : ∀ q ∈ ms, Kept q.1 q.2) :
    (ms.filter fun q => q.2.head?.any (Cost.free ·.cost)).flatMap Prod.snd =
      freeOnes (ms.flatMap Prod.snd) := by
  induction ms with
  | nil => rfl
  | cons q ms ih =>
      obtain ⟨hq, hms⟩ := List.forall_mem_cons.mp h
      rw [freeOnes, List.flatMap_cons, List.filter_append, ← freeOnes, ← freeOnes, ← ih hms,
        hq.freeOnes_eq, List.filter_cons]
      split <;> rfl

/-- If some matches cost nothing then these are the best. -/
theorem Sorted.best_eq (h : ms.Sorted) (hfree : freeOnes (ms.flatMap Prod.snd) ≠ []) :
    ms.best = freeOnes (ms.flatMap Prod.snd) := by
  unfold best
  rw [h.least?_eq hfree]
  exact flatMap_filter_free h.kept

end TolerantMatches

end Utterance
