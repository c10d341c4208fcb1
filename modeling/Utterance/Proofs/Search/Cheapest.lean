import Mathlib.Algebra.Order.Ring.Rat
import Mathlib.Data.List.Flatten
import Mathlib.Data.List.Nodup
import Mathlib.Data.Set.Finite.Lemmas
import Mathlib.Data.String.Basic
import Utterance.Search.Tolerant

/-!
# The cheapest matches of every intent

With costs as exact numbers, a table of matches is what one would make of all the
matches that were added to it (`TolerantMatches.Tabulates`): one entry for each of
their intents, by ascending names, and in it the cheapest ones of this intent.
Adding a match keeps this (`Tabulates.add`), and the best matches of the table are
the cheapest of all (`Tabulates.mem_best`).
-/

namespace Utterance

deriving instance DecidableEq for TolerantMatch

/-- Costs as exact numbers. -/
instance : Cost ℚ where
  ofNat n := n
  tenth := 1 / 10
  add x y := x + y
  less x y := decide (x < y)
  equal x y := decide (x = y)

namespace Cost

@[simp] theorem ofNat_rat (n : Nat) : (Cost.ofNat n : ℚ) = n := rfl

@[simp] theorem tenth_rat : (Cost.tenth : ℚ) = 1 / 10 := rfl

@[simp] theorem add_rat (x y : ℚ) : Cost.add x y = x + y := rfl

@[simp] theorem less_rat (x y : ℚ) : Cost.less x y = decide (x < y) := rfl

@[simp] theorem equal_rat (x y : ℚ) : Cost.equal x y = decide (x = y) := rfl

theorem ite_less_rat (x y : ℚ) : (if Cost.less y x then y else x) = min x y := by
  rw [less_rat, min_comm, min_def_lt]
  simp

end Cost

/-! ## The cheapest of some matches -/

/-- The matches that cost no more than any other. -/
def cheapest (l : List (TolerantMatch ℚ)) : List (TolerantMatch ℚ) :=
  l.filter fun m => l.all fun n => decide (m.cost ≤ n.cost)

theorem mem_cheapest {l : List (TolerantMatch ℚ)} {m : TolerantMatch ℚ} :
    m ∈ cheapest l ↔ m ∈ l ∧ ∀ n ∈ l, m.cost ≤ n.cost := by
  simp [cheapest]

theorem exists_mem_cheapest {l : List (TolerantMatch ℚ)} (hne : l ≠ []) :
    ∃ m, m ∈ cheapest l := by
  obtain ⟨m, hm, hle⟩ := Set.exists_min_image {m | m ∈ l} TolerantMatch.cost l.finite_toSet
    (List.exists_mem_of_ne_nil l hne)
  exact ⟨m, mem_cheapest.mpr ⟨hm, hle⟩⟩

theorem cost_eq_of_mem_cheapest {l : List (TolerantMatch ℚ)} {m n : TolerantMatch ℚ}
    (hm : m ∈ cheapest l) (hn : n ∈ cheapest l) : m.cost = n.cost :=
  le_antisymm ((mem_cheapest.mp hm).2 n (mem_cheapest.mp hn).1)
    ((mem_cheapest.mp hn).2 m (mem_cheapest.mp hm).1)

theorem cheapest_append (l : List (TolerantMatch ℚ)) (m : TolerantMatch ℚ) :
    cheapest (l ++ [m]) = (cheapest l).filter (fun n => decide (n.cost ≤ m.cost)) ++
      if ∀ n ∈ l, m.cost ≤ n.cost then [m] else [] := by
  have hall : ∀ n : TolerantMatch ℚ, ((l ++ [m]).all fun k => decide (n.cost ≤ k.cost)) =
      (decide (n.cost ≤ m.cost) && l.all fun k => decide (n.cost ≤ k.cost)) := fun n => by
    rw [List.all_append, Bool.and_comm]
    simp
  simp only [cheapest, hall, List.filter_append, List.filter_filter]
  refine congrArg _ ?_
  by_cases hleast : ∀ n ∈ l, m.cost ≤ n.cost
  · have hdec : (l.all fun n => decide (m.cost ≤ n.cost)) = true := by simpa using hleast
    simp [hdec, if_pos hleast]
  · have hdec : (l.all fun n => decide (m.cost ≤ n.cost)) = false := by simpa using hleast
    simp [hdec, if_neg hleast]

/-- What is kept after another match is the cheapest of all matches so far. -/
theorem keepCheapest_cheapest (m : TolerantMatch ℚ) (l : List (TolerantMatch ℚ)) :
    keepCheapest m (cheapest l) = cheapest (l ++ [m]) := by
  cases hkept : cheapest l with
  | nil =>
      have hl : l = [] := by
        by_contra hne
        obtain ⟨n, hn⟩ := exists_mem_cheapest hne
        rw [hkept] at hn
        exact List.not_mem_nil hn
      subst hl
      simp [keepCheapest, cheapest]
  | cons first rest =>
      have hfirst : first ∈ cheapest l := hkept ▸ List.mem_cons_self
      obtain ⟨hmem, hleast⟩ := mem_cheapest.mp hfirst
      have hsame : ∀ n ∈ cheapest l, n.cost = first.cost :=
        fun n hn => cost_eq_of_mem_cheapest hn hfirst
      rw [cheapest_append, keepCheapest, Cost.less_rat, Cost.equal_rat]
      rcases lt_trichotomy first.cost m.cost with hlt | heq | hgt
      · have hold : (cheapest l).filter (fun n => decide (n.cost ≤ m.cost)) = cheapest l :=
          List.filter_eq_self.mpr fun n hn => decide_eq_true (hsame n hn ▸ hlt.le)
        have hnew : ¬ ∀ n ∈ l, m.cost ≤ n.cost := fun h => absurd (h first hmem) (not_le.mpr hlt)
        rw [hold, if_neg hnew, if_pos (decide_eq_true hlt), hkept, List.append_nil]
      · have hold : (cheapest l).filter (fun n => decide (n.cost ≤ m.cost)) = cheapest l :=
          List.filter_eq_self.mpr fun n hn => decide_eq_true (hsame n hn ▸ heq.le)
        have hnew : ∀ n ∈ l, m.cost ≤ n.cost := fun n hn => heq ▸ hleast n hn
        rw [hold, if_pos hnew, hkept]
        simp [heq]
      · have hold : (cheapest l).filter (fun n => decide (n.cost ≤ m.cost)) = [] :=
          List.filter_eq_nil_iff.mpr fun n hn h =>
            absurd (hsame n hn ▸ of_decide_eq_true h) (not_le.mpr hgt)
        have hnew : ∀ n ∈ l, m.cost ≤ n.cost := fun n hn => hgt.le.trans (hleast n hn)
        rw [hold, if_pos hnew]
        simp [hgt.le, hgt.ne]

/-! ## The table of all intents -/

namespace TolerantMatches

variable {ms : TolerantMatches ℚ} {l : List (TolerantMatch ℚ)} {m : TolerantMatch ℚ}

/-- The names of the intents ascend, no name twice. -/
def Ascends (ms : TolerantMatches ℚ) : Prop := (ms.map Prod.fst).Pairwise (· < ·)

/-- What is kept for an intent. -/
def keptFor (ms : TolerantMatches ℚ) (intent : String) : List (TolerantMatch ℚ) :=
  (ms.lookup intent).getD []

theorem keptFor_eq_nil {intent : String} : ∀ {ms : TolerantMatches ℚ},
    intent ∉ ms.map Prod.fst → ms.keptFor intent = []
  | [], _ => rfl
  | (name, kept) :: rest, hnot => by
      rw [List.map_cons, List.mem_cons, not_or] at hnot
      rw [keptFor, List.lookup_cons, beq_false_of_ne hnot.1]
      exact keptFor_eq_nil hnot.2

theorem Ascends.of_cons {name : String} {kept : List (TolerantMatch ℚ)}
    {rest : TolerantMatches ℚ} (h : Ascends ((name, kept) :: rest)) :
    (∀ q ∈ rest, name < q.1) ∧ Ascends rest := by
  obtain ⟨hfirst, hrest⟩ := List.pairwise_cons.mp h
  exact ⟨fun q hq => hfirst q.1 (List.mem_map_of_mem hq), hrest⟩

theorem Ascends.keptFor_eq {q : String × List (TolerantMatch ℚ)} :
    ∀ {ms : TolerantMatches ℚ}, ms.Ascends → q ∈ ms → ms.keptFor q.1 = q.2
  | (name, kept) :: rest, hms, hq => by
      obtain ⟨hfirst, hrest⟩ := hms.of_cons
      rw [keptFor, List.lookup_cons]
      rcases List.mem_cons.mp hq with rfl | hq
      · rw [beq_self_eq_true]
        rfl
      · rw [beq_false_of_ne (hfirst q hq).ne']
        exact hrest.keptFor_eq hq

/-- Adding a match changes the entry of its intent, or makes one. -/
theorem Ascends.mem_add_iff {q : String × List (TolerantMatch ℚ)} :
    ∀ {ms : TolerantMatches ℚ}, ms.Ascends →
      (q ∈ ms.add m ↔
        (q ∈ ms ∧ q.1 ≠ m.intent) ∨ q = (m.intent, keepCheapest m (ms.keptFor m.intent)))
  | [], _ => by simp [add, keptFor, keepCheapest]
  | (name, kept) :: rest, hms => by
      obtain ⟨hlater, hrest⟩ := hms.of_cons
      unfold add
      split
      next hlt =>
        have hall : ∀ q ∈ (name, kept) :: rest, q.1 ≠ m.intent := by
          intro q hq
          rcases List.mem_cons.mp hq with rfl | hq
          · exact hlt.ne'
          · exact (hlt.trans (hlater q hq)).ne'
        have hnone : keptFor ((name, kept) :: rest) m.intent = [] := keptFor_eq_nil fun h => by
          obtain ⟨q, hq, heq⟩ := List.mem_map.mp h
          exact hall q hq heq
        rw [hnone, List.mem_cons, or_comm]
        exact or_congr_left (iff_self_and.mpr (hall q))
      next hnlt =>
        split
        next heq =>
          obtain rfl := eq_of_beq heq
          have hkept : keptFor ((m.intent, kept) :: rest) m.intent = kept := by
            rw [keptFor, List.lookup_cons, beq_self_eq_true]
            rfl
          rw [hkept, List.mem_cons, List.mem_cons, or_comm]
          refine or_congr_left ⟨fun hq => ⟨.inr hq, (hlater q hq).ne'⟩, ?_⟩
          rintro ⟨rfl | hq, hne⟩
          · exact absurd rfl hne
          · exact hq
        next hne =>
          have hne : m.intent ≠ name := fun heq => hne (beq_iff_eq.mpr heq)
          have hkept : keptFor ((name, kept) :: rest) m.intent = keptFor rest m.intent := by
            rw [keptFor, List.lookup_cons, beq_false_of_ne hne]
            rfl
          rw [hkept, List.mem_cons, List.mem_cons, hrest.mem_add_iff, ← or_assoc]
          refine or_congr_left ⟨?_, ?_⟩
          · rintro (rfl | ⟨hq, hq'⟩)
            · exact ⟨.inl rfl, hne.symm⟩
            · exact ⟨.inr hq, hq'⟩
          · rintro ⟨rfl | hq, hq'⟩
            · exact .inl rfl
            · exact .inr ⟨hq, hq'⟩

theorem Ascends.add (m : TolerantMatch ℚ) : ∀ {ms : TolerantMatches ℚ}, ms.Ascends →
    (ms.add m).Ascends
  | [], _ => List.pairwise_singleton _ _
  | (name, kept) :: rest, hms => by
      obtain ⟨hlater, hrest⟩ := hms.of_cons
      unfold TolerantMatches.add
      split
      next hlt =>
        refine List.pairwise_cons.mpr ⟨fun k hk => ?_, hms⟩
        obtain ⟨q, hq, rfl⟩ := List.mem_map.mp hk
        rcases List.mem_cons.mp hq with rfl | hq
        · exact hlt
        · exact hlt.trans (hlater q hq)
      next hnlt =>
        split
        next => exact hms
        next hne =>
          have hlt : name < m.intent :=
            lt_of_le_of_ne (not_lt.mp hnlt) fun heq => hne (beq_iff_eq.mpr heq.symm)
          refine List.pairwise_cons.mpr ⟨fun k hk => ?_, hrest.add m⟩
          obtain ⟨q, hq, rfl⟩ := List.mem_map.mp hk
          rcases hrest.mem_add_iff.mp hq with ⟨hq, -⟩ | rfl
          · exact hlater q hq
          · exact hlt

/-- The table has one entry for each intent of the matches, with the cheapest of
them. -/
structure Tabulates (ms : TolerantMatches ℚ) (l : List (TolerantMatch ℚ)) : Prop where
  ascends : ms.Ascends
  kept : ∀ q ∈ ms, q.2 = cheapest (l.filter (·.intent == q.1))
  listed : ∀ intent, intent ∈ ms.map Prod.fst ↔ intent ∈ l.map TolerantMatch.intent

theorem tabulates_nil : Tabulates [] [] :=
  ⟨List.Pairwise.nil, fun _ hq => (List.not_mem_nil hq).elim, fun _ => Iff.rfl⟩

theorem Tabulates.keptFor_eq (h : ms.Tabulates l) (intent : String) :
    ms.keptFor intent = cheapest (l.filter (·.intent == intent)) := by
  by_cases hlisted : intent ∈ ms.map Prod.fst
  · obtain ⟨q, hq, rfl⟩ := List.mem_map.mp hlisted
    rw [h.ascends.keptFor_eq hq, h.kept q hq]
  · have hnone : l.filter (·.intent == intent) = [] :=
      List.filter_eq_nil_iff.mpr fun m hm heq =>
        hlisted ((h.listed intent).mpr (List.mem_map.mpr ⟨m, hm, eq_of_beq heq⟩))
    rw [keptFor_eq_nil hlisted, hnone]
    rfl

theorem Tabulates.add (h : ms.Tabulates l) (m : TolerantMatch ℚ) :
    (ms.add m).Tabulates (l ++ [m]) where
  ascends := h.ascends.add m
  kept q hq := by
    rcases h.ascends.mem_add_iff.mp hq with ⟨hq, hne⟩ | rfl
    · have hnew : [m].filter (·.intent == q.1) = [] := by simp [hne.symm]
      rw [h.kept q hq, List.filter_append, hnew, List.append_nil]
    · have hnew : [m].filter (·.intent == m.intent) = [m] := by simp
      rw [h.keptFor_eq, keepCheapest_cheapest, List.filter_append, hnew]
  listed intent := by
    have hentries : intent ∈ (ms.add m).map Prod.fst ↔
        intent ∈ ms.map Prod.fst ∨ intent = m.intent := by
      simp only [List.mem_map, h.ascends.mem_add_iff]
      constructor
      · rintro ⟨q, ⟨hq, -⟩ | rfl, rfl⟩
        · exact .inl ⟨q, hq, rfl⟩
        · exact .inr rfl
      · rintro (⟨q, hq, rfl⟩ | rfl)
        · by_cases heq : q.1 = m.intent
          · exact ⟨_, .inr rfl, heq.symm⟩
          · exact ⟨q, .inl ⟨hq, heq⟩, rfl⟩
        · exact ⟨_, .inr rfl, rfl⟩
    rw [hentries, h.listed, List.map_append, List.mem_append, List.map_singleton,
      List.mem_singleton]

/-- Adding matches one by one. -/
theorem Tabulates.foldl_add : ∀ {l' l : List (TolerantMatch ℚ)} {ms : TolerantMatches ℚ},
    ms.Tabulates l → (l'.foldl (fun ms m => ms.add m) ms).Tabulates (l ++ l')
  | [], l, ms, h => by
      rw [List.append_nil]
      exact h
  | m :: l', l, ms, h => by
      rw [List.append_cons]
      exact (h.add m).foldl_add

/-! ## The best of all -/

theorem Tabulates.mem_kept (h : ms.Tabulates l) {q : String × List (TolerantMatch ℚ)}
    (hq : q ∈ ms) {m : TolerantMatch ℚ} (hm : m ∈ q.2) :
    m ∈ l ∧ m.intent = q.1 ∧ ∀ n ∈ l, n.intent = q.1 → m.cost ≤ n.cost := by
  rw [h.kept q hq] at hm
  obtain ⟨hm, hleast⟩ := mem_cheapest.mp hm
  obtain ⟨hm, hintent⟩ := List.mem_filter.mp hm
  exact ⟨hm, eq_of_beq hintent, fun n hn heq =>
    hleast n (List.mem_filter.mpr ⟨hn, beq_iff_eq.mpr heq⟩)⟩

theorem Tabulates.exists_kept (h : ms.Tabulates l) {m : TolerantMatch ℚ} (hm : m ∈ l)
    (hleast : ∀ n ∈ l, n.intent = m.intent → m.cost ≤ n.cost) : ∃ q ∈ ms, m ∈ q.2 := by
  obtain ⟨q, hq, hintent⟩ := List.mem_map.mp ((h.listed m.intent).mpr (List.mem_map_of_mem hm))
  refine ⟨q, hq, ?_⟩
  rw [h.kept q hq]
  refine mem_cheapest.mpr ⟨List.mem_filter.mpr ⟨hm, beq_iff_eq.mpr hintent.symm⟩, fun n hn => ?_⟩
  obtain ⟨hn, heq⟩ := List.mem_filter.mp hn
  exact hleast n hn ((eq_of_beq heq).trans hintent)

/-- What is kept for an intent has one cost, that of its first match. -/
theorem Tabulates.exists_head (h : ms.Tabulates l) {q : String × List (TolerantMatch ℚ)}
    (hq : q ∈ ms) :
    ∃ first ∈ q.2, q.2.head? = some first ∧ ∀ m ∈ q.2, m.cost = first.cost := by
  obtain ⟨m, hm, hintent⟩ := List.mem_map.mp ((h.listed q.1).mp (List.mem_map_of_mem hq))
  have hne : l.filter (·.intent == q.1) ≠ [] :=
    List.ne_nil_of_mem (List.mem_filter.mpr ⟨hm, beq_iff_eq.mpr hintent⟩)
  obtain ⟨n, hn⟩ := exists_mem_cheapest hne
  rw [← h.kept q hq] at hn
  obtain ⟨first, rest, hkept⟩ := List.exists_cons_of_ne_nil (List.ne_nil_of_mem hn)
  have hfirst : first ∈ q.2 := hkept ▸ List.mem_cons_self
  refine ⟨first, hfirst, by rw [hkept]; rfl, fun m hm => ?_⟩
  rw [h.kept q hq] at hm hfirst
  exact cost_eq_of_mem_cheapest hm hfirst

/-- The costs of the entries. -/
def costs (ms : TolerantMatches ℚ) : List ℚ :=
  ms.filterMap fun q => q.2.head?.map TolerantMatch.cost

theorem foldl_some_min {f : Option ℚ → ℚ → Option ℚ} (hf : ∀ x y, f (some x) y = some (min x y)) :
    ∀ (costs : List ℚ) (x : ℚ), costs.foldl f (some x) = some (costs.foldl min x)
  | [], _ => rfl
  | cost :: costs, x => by
      rw [List.foldl_cons, List.foldl_cons, hf]
      exact foldl_some_min hf costs _

theorem least?_eq (ms : TolerantMatches ℚ) : ms.least? = ms.costs.min? := by
  unfold least?
  change ms.costs.foldl _ none = _
  cases ms.costs with
  | nil => rfl
  | cons cost costs => exact foldl_some_min (fun x y => congrArg some (Cost.ite_less_rat x y)) costs cost

theorem Tabulates.mem_costs (h : ms.Tabulates l) {cost : ℚ} :
    cost ∈ ms.costs ↔ ∃ q ∈ ms, ∃ m ∈ q.2, m.cost = cost := by
  rw [costs, List.mem_filterMap]
  refine exists_congr fun q => and_congr_right fun hq => ?_
  obtain ⟨first, hfirst, hhead, hcost⟩ := h.exists_head hq
  rw [hhead, Option.map_some, Option.some.injEq]
  refine ⟨fun heq => ⟨first, hfirst, heq⟩, ?_⟩
  rintro ⟨m, hm, rfl⟩
  exact (hcost m hm).symm

/-- The least cost in the table is the least of all that were added. -/
theorem Tabulates.le_of_least? (h : ms.Tabulates l) {least : ℚ} (hleast : ms.least? = some least) :
    (∃ m ∈ l, m.cost = least) ∧ ∀ n ∈ l, least ≤ n.cost := by
  rw [least?_eq, List.min?_eq_some_iff] at hleast
  obtain ⟨q, hq, m, hm, hcost⟩ := h.mem_costs.mp hleast.1
  refine ⟨⟨m, (h.mem_kept hq hm).1, hcost⟩, fun n hn => ?_⟩
  obtain ⟨q, hq, hintent⟩ := List.mem_map.mp ((h.listed n.intent).mpr (List.mem_map_of_mem hn))
  obtain ⟨first, hfirst, -⟩ := h.exists_head hq
  calc least ≤ first.cost := hleast.2 _ (h.mem_costs.mpr ⟨q, hq, first, hfirst, rfl⟩)
    _ ≤ n.cost := (h.mem_kept hq hfirst).2.2 n hn hintent.symm

/-- The best matches are the cheapest of all that were added. -/
theorem Tabulates.mem_best (h : ms.Tabulates l) {m : TolerantMatch ℚ} :
    m ∈ ms.best ↔ m ∈ l ∧ ∀ n ∈ l, m.cost ≤ n.cost := by
  unfold best
  split
  next hleast =>
    rw [least?_eq, List.min?_eq_none_iff] at hleast
    refine ⟨fun hm => (List.not_mem_nil hm).elim, fun ⟨hm, hall⟩ => ?_⟩
    obtain ⟨q, hq, hmq⟩ := h.exists_kept hm fun n hn _ => hall n hn
    have hcost := h.mem_costs.mpr ⟨q, hq, m, hmq, rfl⟩
    rw [hleast] at hcost
    exact (List.not_mem_nil hcost).elim
  next least hleast =>
    obtain ⟨⟨n, hn, hcost⟩, hall⟩ := h.le_of_least? hleast
    have hhead : ∀ q ∈ ms, ∀ m ∈ q.2,
        q.2.head?.any (fun first => Cost.equal first.cost least) = true ↔ m.cost = least := by
      intro q hq m hm
      obtain ⟨first, -, hhead, hsame⟩ := h.exists_head hq
      rw [hhead, Option.any_some, Cost.equal_rat, decide_eq_true_eq, hsame m hm]
    rw [List.mem_flatMap]
    constructor
    · rintro ⟨q, hq, hm⟩
      obtain ⟨hq, hany⟩ := List.mem_filter.mp hq
      refine ⟨(h.mem_kept hq hm).1, fun n hn => ?_⟩
      rw [(hhead q hq m hm).mp hany]
      exact hall n hn
    · rintro ⟨hm, hmin⟩
      obtain ⟨q, hq, hmq⟩ := h.exists_kept hm fun n hn _ => hmin n hn
      have heq : m.cost = least := le_antisymm (hcost ▸ hmin n hn) (hall m hm)
      exact ⟨q, List.mem_filter.mpr ⟨hq, (hhead q hq m hmq).mpr heq⟩, hmq⟩

/-- They stand in the order of their entries. -/
theorem best_sublist (ms : TolerantMatches ℚ) : ms.best.Sublist (ms.flatMap Prod.snd) := by
  unfold best
  split
  next => exact List.nil_sublist _
  next => exact List.filter_sublist.flatMap _

theorem Tabulates.pairwise_best (h : ms.Tabulates l) :
    (ms.best.map TolerantMatch.intent).Pairwise (· ≤ ·) := by
  refine List.pairwise_map.mpr (List.Pairwise.sublist ms.best_sublist ?_)
  refine List.pairwise_flatMap.mpr ⟨fun q hq => ?_, ?_⟩
  · refine List.pairwise_of_forall_mem_list fun m hm n hn => ?_
    rw [(h.mem_kept hq hm).2.1, (h.mem_kept hq hn).2.1]
  · refine (List.pairwise_map.mp h.ascends).imp_of_mem fun {q r} hq hr hlt m hm n hn => ?_
    rw [(h.mem_kept hq hm).2.1, (h.mem_kept hr hn).2.1]
    exact le_of_lt hlt

theorem Tabulates.nodup_best (h : ms.Tabulates l) (hl : l.Nodup) : ms.best.Nodup := by
  refine List.Nodup.sublist ms.best_sublist (List.nodup_flatMap.mpr ⟨fun q hq => ?_, ?_⟩)
  · rw [h.kept q hq]
    exact (hl.filter _).filter _
  · refine (List.pairwise_map.mp h.ascends).imp_of_mem fun {q r} hq hr hlt => ?_
    refine List.disjoint_left.mpr ?_
    intro m hm hm'
    exact hlt.ne ((h.mem_kept hq hm).2.1.symm.trans (h.mem_kept hr hm').2.1)

end TolerantMatches

end Utterance
