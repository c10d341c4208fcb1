import Utterance.Proofs.Decimal.Whole
import Utterance.Proofs.Search.Cycles
import Utterance.Proofs.Search.Found
import Utterance.Proofs.Recognition.StopWords

/-!
# Whole costs

Without stop words and wildcards all costs are whole numbers.  In a graph without cycles none of
the numbers that a search adds and compares is larger than the graph and the input, so as long as
these are small enough for whole numbers to be exact (`Cost.CountsTo`), it makes no difference in
which kind of numbers costs are counted (`Graph.best_counted`).  Floating point numbers are
exact up to fifty-three bits (`Cost.countsTo_float`).
-/

namespace Utterance

/-- Whole costs; they do where nothing costs a tenth, which is rounded down. -/
instance : Cost ℕ where
  ofNat n := n
  tenth := 0
  add m n := m + n
  less m n := decide (m < n)
  equal m n := decide (m = n)

/-- Up to `N`, whole numbers are added and compared exactly. -/
structure Cost.CountsTo (κ : Type) [Cost κ] (N : Nat) : Prop where
  add_eq : ∀ {m n : Nat}, m + n ≤ N →
    Cost.add (Cost.ofNat m : κ) (Cost.ofNat n) = Cost.ofNat (m + n)
  less_eq : ∀ {m n : Nat}, m ≤ N → n ≤ N →
    Cost.less (Cost.ofNat m : κ) (Cost.ofNat n) = decide (m < n)
  equal_eq : ∀ {m n : Nat}, m ≤ N → n ≤ N →
    Cost.equal (Cost.ofNat m : κ) (Cost.ofNat n) = decide (m = n)

theorem Cost.countsTo_rat (N : Nat) : Cost.CountsTo ℚ N where
  add_eq _ := (Nat.cast_add _ _).symm
  less_eq _ _ := decide_eq_decide.mpr Nat.cast_lt
  equal_eq _ _ := decide_eq_decide.mpr Nat.cast_inj

theorem Cost.countsTo_float {N : Nat} (hN : N < 2 ^ 53) : Cost.CountsTo Float N where
  add_eq hle := Decimal.ofNat_add_ofNat (hle.trans_lt hN)
  less_eq hm hn := decide_eq_decide.mpr
    (Decimal.ofNat_lt_ofNat (hm.trans_lt hN) (hn.trans_lt hN))
  equal_eq hm hn := Decimal.ofNat_beq_ofNat (hm.trans_lt hN) (hn.trans_lt hN)

/-! ## Counting in other numbers -/

section

variable (κ : Type) [Cost κ]

def Hearing.counted (h : Hearing ℕ) : Hearing κ := ⟨Cost.ofNat h.cost, h.consumed, h.matched⟩

def TolerantMatch.counted (m : TolerantMatch ℕ) : TolerantMatch κ :=
  ⟨m.intent, m.path, Cost.ofNat m.cost⟩

def TolerantMatches.counted (ms : TolerantMatches ℕ) : TolerantMatches κ :=
  ms.map fun q => (q.1, q.2.map (TolerantMatch.counted κ))

def TolerantVisit.counted (v : TolerantVisit ℕ) : TolerantVisit κ :=
  ⟨v.state, v.rest, v.back, v.said, Cost.ofNat v.cost, v.intent⟩

def TolerantSearch.counted (s : TolerantSearch ℕ) : TolerantSearch κ :=
  ⟨s.found.counted κ, Cost.ofNat s.ceiling⟩

end

/-- No match of the table costs more. -/
def TolerantMatches.Below (N : Nat) (ms : TolerantMatches ℕ) : Prop :=
  ∀ q ∈ ms, ∀ m ∈ q.2, m.cost ≤ N

variable {κ : Type} [Cost κ] {N : Nat} (hκ : Cost.CountsTo κ N)

/-! ## Tables -/

section

include hκ

theorem keepCheapest_counted {m : TolerantMatch ℕ} {kept : List (TolerantMatch ℕ)} (hm : m.cost ≤ N)
    (hkept : ∀ n ∈ kept, n.cost ≤ N) :
    keepCheapest (m.counted κ) (kept.map (TolerantMatch.counted κ)) =
      (keepCheapest m kept).map (TolerantMatch.counted κ) := by
  cases kept with
  | nil => rfl
  | cons first rest =>
      have hfirst : first.cost ≤ N := hkept _ List.mem_cons_self
      have hless : Cost.less (first.counted κ).cost (m.counted κ).cost =
          Cost.less first.cost m.cost := hκ.less_eq hfirst hm
      have hequal : Cost.equal (m.counted κ).cost (first.counted κ).cost =
          Cost.equal m.cost first.cost := hκ.equal_eq hm hfirst
      rw [List.map_cons, keepCheapest, keepCheapest, hless, hequal]
      split
      · rfl
      · split
        · rw [List.map_append]
          rfl
        · rfl

theorem TolerantMatches.add_counted {m : TolerantMatch ℕ} (hm : m.cost ≤ N) :
    ∀ {ms : TolerantMatches ℕ}, ms.Below N →
      (ms.counted κ).add (m.counted κ) = (ms.add m).counted κ
  | [], _ => rfl
  | (intent, kept) :: rest, hms => by
      obtain ⟨hkept, hrest⟩ := List.forall_mem_cons.mp hms
      have hcons : TolerantMatches.counted κ ((intent, kept) :: rest) =
          (intent, kept.map (TolerantMatch.counted κ)) :: TolerantMatches.counted κ rest := rfl
      rw [hcons, add, add]
      change (if m.intent < intent then _ else if m.intent == intent then _ else _) = _
      split
      · rfl
      · split
        · rw [keepCheapest_counted hκ hm hkept]
          rfl
        · rw [add_counted hm hrest]
          rfl

end

/-- The lower of two costs, one of which may be missing. -/
def lower (least : Option κ) (cost : κ) : Option κ :=
  match least with
  | none => some cost
  | some x => some (if Cost.less cost x then cost else x)

/-- The cost of the matches of each intent. -/
def TolerantMatches.headCosts (ms : TolerantMatches κ) : List κ :=
  ms.filterMap fun q => q.2.head?.map TolerantMatch.cost

theorem TolerantMatches.least?_eq_foldl (ms : TolerantMatches κ) :
    ms.least? = ms.headCosts.foldl lower none := rfl

theorem TolerantMatches.headCosts_counted (ms : TolerantMatches ℕ) :
    (ms.counted κ).headCosts = ms.headCosts.map Cost.ofNat := by
  rw [headCosts, headCosts, counted, List.filterMap_map, List.map_filterMap]
  refine List.filterMap_congr fun q _ => ?_
  cases hkept : q.2 <;> simp [hkept, TolerantMatch.counted]

theorem TolerantMatches.Below.headCosts {ms : TolerantMatches ℕ} (hms : ms.Below N) :
    ∀ c ∈ ms.headCosts, c ≤ N := by
  intro c hc
  obtain ⟨q, hq, hhead⟩ := List.mem_filterMap.mp hc
  obtain ⟨m, hm, rfl⟩ := Option.map_eq_some_iff.mp hhead
  exact hms q hq m (List.mem_of_mem_head? hm)

theorem lower_le {least : Option ℕ} (hleast : ∀ x ∈ least, x ≤ N) {c : ℕ} (hc : c ≤ N) :
    ∀ x ∈ lower least c, x ≤ N := by
  intro x hx
  cases least with
  | none =>
      cases hx
      exact hc
  | some y =>
      have hy : y ≤ N := hleast y rfl
      obtain rfl := Option.some.inj hx
      split
      · exact hc
      · exact hy

theorem foldl_lower_le {costs : List ℕ} (hcosts : ∀ c ∈ costs, c ≤ N) {least : Option ℕ}
    (hleast : ∀ x ∈ least, x ≤ N) : ∀ x ∈ costs.foldl lower least, x ≤ N := by
  induction costs generalizing least with
  | nil => exact hleast
  | cons c costs ih =>
      obtain ⟨hc, hcosts⟩ := List.forall_mem_cons.mp hcosts
      exact ih hcosts (lower_le hleast hc)

section

include hκ

theorem lower_counted {least : Option ℕ} (hleast : ∀ x ∈ least, x ≤ N) {c : ℕ} (hc : c ≤ N) :
    lower (least.map Cost.ofNat) (Cost.ofNat c : κ) = (lower least c).map Cost.ofNat := by
  cases least with
  | none => rfl
  | some x =>
      have hless : Cost.less (Cost.ofNat c : κ) (Cost.ofNat x) = Cost.less c x :=
        hκ.less_eq hc (hleast x rfl)
      rw [Option.map_some, lower, lower, hless]
      exact congrArg some (apply_ite Cost.ofNat _ _ _).symm

theorem foldl_lower_counted {costs : List ℕ} (hcosts : ∀ c ∈ costs, c ≤ N) {least : Option ℕ}
    (hleast : ∀ x ∈ least, x ≤ N) :
    (costs.map (Cost.ofNat : ℕ → κ)).foldl lower (least.map Cost.ofNat) =
      (costs.foldl lower least).map Cost.ofNat := by
  induction costs generalizing least with
  | nil => rfl
  | cons c costs ih =>
      obtain ⟨hc, hcosts⟩ := List.forall_mem_cons.mp hcosts
      rw [List.map_cons, List.foldl_cons, List.foldl_cons, lower_counted hκ hleast hc]
      exact ih hcosts (lower_le hleast hc)

theorem TolerantMatches.best_counted {ms : TolerantMatches ℕ} (hms : ms.Below N) :
    (ms.counted κ).best = ms.best.map (TolerantMatch.counted κ) := by
  have hnone : ∀ x ∈ (none : Option ℕ), x ≤ N := fun x hx => by cases hx
  have hcounted : (ms.counted κ).least? = ms.least?.map Cost.ofNat := by
    rw [least?_eq_foldl, headCosts_counted]
    exact foldl_lower_counted hκ hms.headCosts hnone
  unfold best
  rw [hcounted]
  cases hleast : ms.least? with
  | none => rfl
  | some least =>
      have hle : least ≤ N := foldl_lower_le hms.headCosts hnone least hleast
      have hhead : ∀ q ∈ ms, ((q.2.map (TolerantMatch.counted κ)).head?.any fun m =>
          Cost.equal m.cost (Cost.ofNat least)) =
            q.2.head?.any fun m => Cost.equal m.cost least := by
        intro q hq
        cases hkept : q.2 with
        | nil => rfl
        | cons m kept =>
            exact hκ.equal_eq (hms q hq m (hkept ▸ List.mem_cons_self)) hle
      simp only [Option.map_some]
      rw [counted, List.filter_map, List.flatMap_map, List.map_flatMap]
      exact congrArg _ (List.filter_congr hhead)

end

theorem TolerantMatches.Below.add {m : TolerantMatch ℕ} (hm : m.cost ≤ N) {ms : TolerantMatches ℕ}
    (hms : ms.Below N) : (ms.add m).Below N := by
  intro q hq n hn
  rcases TolerantMatches.mem_add hq hn with rfl | ⟨q, hq, hn⟩
  · exact hm
  · exact hms q hq n hn

/-! ## What an edge costs -/

section

variable {o : SearchOptions} {word : String} {tokens : List String}

/-- Every token that is skipped costs one. -/
theorem skippedCost_nat (skipped : List String) (cost : ℕ) :
    skippedCost (fun t => [].contains (o.transform t)) cost skipped = cost + skipped.length := by
  induction skipped generalizing cost with
  | nil => rfl
  | cons t skipped ih => exact (ih (cost + 1)).trans (by rw [List.length_cons]; omega)

/-- What is paid is no more than the tokens that are gone. -/
theorem cost_add_length_le (hwild : word ≠ wildcard) {h : Hearing ℕ}
    (hh : usualCost o [] word tokens = some h) :
    h.cost + (tokens.drop h.consumed).length ≤ tokens.length := by
  by_cases hsilent : word = ""
  · rw [hsilent] at hh
    cases hh
    exact Nat.le_of_eq (Nat.zero_add _)
  · rw [usualCost_eq_scanTokens hsilent hwild, scanTokens_eq_some_iff] at hh
    obtain ⟨skipped, token, later, rfl, -, -, rfl⟩ := hh
    have hcost : skippedCost (fun t => [].contains (o.transform t)) (Cost.ofNat 0) skipped =
        skipped.length := (skippedCost_nat skipped 0).trans (Nat.zero_add _)
    simp only [hcost, List.length_drop, List.length_append, List.length_cons]
    omega

include hκ

theorem scanTokens_counted {cost : ℕ} (hle : cost + tokens.length ≤ N) (n : ℕ) :
    scanTokens o [] word (Cost.ofNat cost : κ) n tokens =
      (scanTokens o [] word cost n tokens).map (Hearing.counted κ) := by
  induction tokens generalizing cost n with
  | nil => rfl
  | cons token rest ih =>
      rw [List.length_cons] at hle
      have hmore : Cost.add (Cost.ofNat cost : κ) (if [].contains (o.transform token)
          then Cost.tenth else Cost.ofNat 1) = Cost.ofNat (cost + 1) := hκ.add_eq (by omega)
      rw [scanTokens, scanTokens]
      split
      · rfl
      · exact (congrArg (scanTokens o [] word · (n + 1) rest) hmore).trans (ih (by omega) (n + 1))

theorem usualCost_counted (hwild : word ≠ wildcard) (hle : tokens.length ≤ N) :
    (usualCost o [] word tokens : Option (Hearing κ)) =
      (usualCost o [] word tokens).map (Hearing.counted κ) := by
  by_cases hsilent : word = ""
  · rw [hsilent]
    rfl
  · rw [usualCost_eq_scanTokens hsilent hwild, usualCost_eq_scanTokens hsilent hwild]
    exact scanTokens_counted hκ (by omega) 0

end

/-! ## Searches -/

/-- The visit has come along a path of the graph, on which it has said no more words than there
are steps and paid no more than the tokens that are gone. -/
structure TolerantVisit.Modest (g : Graph) (start : Nat) (tokens : List String)
    (v : TolerantVisit ℕ) : Prop where
  follows : g.Follows (fun _ _ => True) start v.back.reverse v.state
  said_le : v.said ≤ v.back.length
  cost_le : v.cost + v.rest.length ≤ tokens.length

namespace TolerantVisit

variable {g : Graph} {o : SearchOptions} {start : Nat} {tokens : List String}
  {v w : TolerantVisit ℕ}

theorem Modest.said_le_size (hcycles : g.Acyclic fun _ => True) (hv : v.Modest g start tokens) :
    v.said ≤ g.size := by
  have hshort := hv.follows.length_le_size hcycles
  rw [List.length_reverse] at hshort
  exact hv.said_le.trans hshort

theorem Modest.advance (hg : g.Valid) (hwild : g.Inputs (· ≠ wildcard))
    (hv : v.Modest g start tokens) (hw : w ∈ TolerantSearch.advance g o (usualCost o []) v) :
    w.Modest g start tokens := by
  obtain ⟨e, he, hcross⟩ := List.mem_filterMap.mp hw
  obtain ⟨h, hh, rfl⟩ := Option.map_eq_some_iff.mp hcross
  have hedge := hg.mem_edgesFrom.mp (List.mem_filter.mp he).1
  have hpaid := cost_add_length_le (hwild.of_edge? hedge) hh
  have hcost := hv.cost_le
  refine ⟨?_, ?_, ?_⟩
  · rw [List.reverse_cons]
    exact hv.follows.trans (.single hedge trivial)
  · have hsaid := hv.said_le
    change (if e.output.isEmpty || Label.isControl e.output then v.said else v.said + 1) ≤
      v.back.length + 1
    split <;> omega
  · change v.cost + h.cost + (v.rest.drop h.consumed).length ≤ tokens.length
    omega

end TolerantVisit

/-- Nothing that has been found costs more, and nothing that does will be looked for. -/
structure TolerantSearch.Below (N : Nat) (s : TolerantSearch ℕ) : Prop where
  found : s.found.Below N
  ceiling_le : s.ceiling ≤ N

namespace TolerantSearch

variable {g : Graph} {o : SearchOptions} {start : Nat} {tokens : List String}
  {v : TolerantVisit ℕ}

theorem Below.record {s : TolerantSearch ℕ} (hs : s.Below N)
    (hv : v.cost + v.rest.length ≤ N) : (s.record g v).Below N := by
  unfold TolerantSearch.record
  split
  · refine ⟨hs.found.add hv, ?_⟩
    simp only
    split
    · exact hv
    · exact hs.ceiling_le
  · exact hs

section

include hκ

theorem record_counted {s : TolerantSearch ℕ} (hs : s.Below N) (hv : v.cost + v.rest.length ≤ N)
    (hsaid : v.said ≤ N) :
    (s.counted κ).record g (v.counted κ) = (s.record g v).counted κ := by
  have hcounts : Cost.less (v.counted κ).cost (Cost.ofNat v.said : κ) =
      Cost.less v.cost (Cost.ofNat v.said) := hκ.less_eq (by omega) hsaid
  have hcost : Cost.add (v.counted κ).cost (Cost.ofNat v.rest.length : κ) =
      Cost.ofNat (v.cost + v.rest.length) := hκ.add_eq hv
  have hlower : Cost.less (Cost.ofNat (v.cost + v.rest.length) : κ) (s.counted κ).ceiling =
      Cost.less (v.cost + v.rest.length) s.ceiling := hκ.less_eq hv hs.ceiling_le
  have hadd := TolerantMatches.add_counted hκ
    (m := ⟨v.intent.getD "", v.back.reverse, v.cost + v.rest.length⟩) hv hs.found
  unfold record
  change (if g.isFinal v.state && Cost.less (v.counted κ).cost (Cost.ofNat v.said) then _
    else _) = _
  rw [hcounts]
  split
  · change (⟨(s.counted κ).found.add ⟨v.intent.getD "", v.back.reverse,
        Cost.add (v.counted κ).cost (Cost.ofNat v.rest.length)⟩,
      if Cost.less (Cost.add (v.counted κ).cost (Cost.ofNat v.rest.length)) (s.counted κ).ceiling
        then Cost.add (v.counted κ).cost (Cost.ofNat v.rest.length)
        else (s.counted κ).ceiling⟩ : TolerantSearch κ) = _
    rw [hcost, hlower]
    exact congrArg₂ TolerantSearch.mk hadd (apply_ite Cost.ofNat _ _ _).symm
  · rfl

theorem cross?_counted {e : Edge} (hwild : e.input ≠ wildcard)
    (hv : v.cost + v.rest.length ≤ N) :
    cross? (usualCost o []) (v.counted κ) e =
      (cross? (usualCost o []) v e).map (TolerantVisit.counted κ) := by
  have hcost : (usualCost o [] e.input v.rest : Option (Hearing κ)) =
      (usualCost o [] e.input v.rest).map (Hearing.counted κ) :=
    usualCost_counted hκ hwild (by omega)
  unfold cross?
  change (usualCost o [] e.input v.rest : Option (Hearing κ)).map _ = _
  rw [hcost]
  cases hh : (usualCost o [] e.input v.rest : Option (Hearing ℕ)) with
  | none => rfl
  | some h =>
      have hpaid := cost_add_length_le hwild hh
      have hsum : Cost.add (Cost.ofNat v.cost : κ) (Cost.ofNat h.cost) =
          Cost.ofNat (v.cost + h.cost) := hκ.add_eq (by omega)
      simp only [Option.map_some, TolerantVisit.counted, Hearing.counted, hsum]
      rfl

theorem advance_counted (hg : g.Valid) (hwild : g.Inputs (· ≠ wildcard))
    (hv : v.cost + v.rest.length ≤ N) :
    advance g o (usualCost o []) (v.counted κ) =
      (advance g o (usualCost o []) v).map (TolerantVisit.counted κ) := by
  unfold advance
  rw [List.map_filterMap]
  refine List.filterMap_congr fun e he => cross?_counted hκ ?_ hv
  exact hwild.of_edge? (hg.mem_edgesFrom.mp (List.mem_filter.mp he).1)

end

section

variable (hg : g.Valid) (hcycles : g.Acyclic fun _ => True) (hwild : g.Inputs (· ≠ wildcard))
  (hsize : g.size ≤ N) (hlength : tokens.length ≤ N)

include hκ hg hcycles hwild hsize hlength

/-- A level is swept alike in all numbers that count far enough. -/
theorem sweep_counted {level : List (TolerantVisit ℕ)}
    (hlevel : ∀ v ∈ level, v.Modest g start tokens) {s : TolerantSearch ℕ} (hs : s.Below N) :
    (sweep g o (usualCost o []) s level).1.Below N ∧
      (∀ v ∈ (sweep g o (usualCost o []) s level).2, v.Modest g start tokens) ∧
      sweep g o (usualCost o []) (s.counted κ) (level.map (TolerantVisit.counted κ)) =
        ((sweep g o (usualCost o []) s level).1.counted κ,
          (sweep g o (usualCost o []) s level).2.map (TolerantVisit.counted κ)) := by
  induction level generalizing s with
  | nil => exact ⟨hs, List.forall_mem_nil _, rfl⟩
  | cons v level ih =>
      obtain ⟨hv, hlevel⟩ := List.forall_mem_cons.mp hlevel
      have hcost : v.cost + v.rest.length ≤ N := hv.cost_le.trans hlength
      have hrecord : (s.record g v).Below N := hs.record hcost
      obtain ⟨hbelow, hlater, hsweep⟩ := ih hlevel hrecord
      have hnext : ∀ w ∈ if Cost.less (s.record g v).ceiling v.cost then []
          else advance g o (usualCost o []) v, w.Modest g start tokens := by
        split
        · exact List.forall_mem_nil _
        · exact fun w hw => hv.advance hg hwild hw
      refine ⟨hbelow, List.forall_mem_append.mpr ⟨hnext, hlater⟩, ?_⟩
      have hless : Cost.less ((s.record g v).counted κ).ceiling (v.counted κ).cost =
          Cost.less (s.record g v).ceiling v.cost := hκ.less_eq hrecord.ceiling_le (by omega)
      have hstep : (if Cost.less ((s.record g v).counted κ).ceiling (v.counted κ).cost then []
          else advance g o (usualCost o []) (v.counted κ)) =
          (if Cost.less (s.record g v).ceiling v.cost then []
            else advance g o (usualCost o []) v).map (TolerantVisit.counted κ) := by
        rw [hless, advance_counted hκ hg hwild hcost]
        split <;> rfl
      rw [List.map_cons, sweep, sweep,
        record_counted hκ hs hcost ((hv.said_le_size hcycles).trans hsize)]
      simp only
      rw [hsweep, hstep, List.map_append]

theorem run_counted {bound : Nat} {level : List (TolerantVisit ℕ)}
    (hlevel : ∀ v ∈ level, v.Modest g start tokens) {s : TolerantSearch ℕ} (hs : s.Below N) :
    (run g o (usualCost o []) bound s level).Below N ∧
      run g o (usualCost o []) bound (s.counted κ) (level.map (TolerantVisit.counted κ)) =
        (run g o (usualCost o []) bound s level).counted κ := by
  induction bound generalizing s level with
  | zero => exact ⟨hs, rfl⟩
  | succ bound ih =>
      cases level with
      | nil => exact ⟨hs, rfl⟩
      | cons v level =>
          obtain ⟨hbelow, hnext, hsweep⟩ :=
            sweep_counted hκ hg hcycles hwild hsize hlength hlevel hs
          have hrun : run g o (usualCost o []) (bound + 1) (s.counted κ)
              ((v :: level).map (TolerantVisit.counted κ)) = run g o (usualCost o []) bound
                (sweep g o (usualCost o []) (s.counted κ)
                  ((v :: level).map (TolerantVisit.counted κ))).1
                (sweep g o (usualCost o []) (s.counted κ)
                  ((v :: level).map (TolerantVisit.counted κ))).2 := rfl
          rw [hrun, hsweep]
          exact ih hnext hbelow

end

end TolerantSearch

/-- Without wildcards and stop words, a search in a graph without cycles finds the same whichever
numbers costs are counted in, if they count as far as there are states and tokens. -/
theorem Graph.best_counted (hκ : Cost.CountsTo κ N) {g : Graph} {o : SearchOptions}
    {tokens : List String} (hg : g.Valid)
    (hcycles : g.Acyclic fun _ => True) (hwild : g.Inputs (· ≠ wildcard)) (hsize : g.size ≤ N)
    (hlength : tokens.length ≤ N) :
    (g.tolerantMatches o (usualCost o []) tokens : TolerantMatches κ).best =
      (g.tolerantMatches o (usualCost o []) tokens : TolerantMatches ℕ).best.map
        (TolerantMatch.counted κ) := by
  cases hstart : g.start with
  | none =>
      rw [tolerantMatches_eq_nil (.inl hstart), tolerantMatches_eq_nil (.inl hstart)]
      rfl
  | some start =>
      by_cases hne : tokens = []
      · rw [tolerantMatches_eq_nil (.inr hne), tolerantMatches_eq_nil (.inr hne)]
        rfl
      · have hfirst : ∀ v ∈ [(⟨start, tokens, [], 0, 0, none⟩ : TolerantVisit ℕ)],
            v.Modest g start tokens := by
          intro v hv
          obtain rfl := List.mem_singleton.mp hv
          exact ⟨.nil start, Nat.le_refl 0, Nat.le_of_eq (Nat.zero_add _)⟩
        have hbegin : TolerantSearch.Below N ⟨[], g.size⟩ := ⟨List.forall_mem_nil _, hsize⟩
        obtain ⟨hbelow, hrun⟩ := TolerantSearch.run_counted (o := o) hκ hg hcycles hwild hsize
          hlength hfirst hbegin
        have hfound := congrArg TolerantSearch.found hrun
        rw [tolerantMatches_eq hstart hne, tolerantMatches_eq hstart hne]
        exact (congrArg _ hfound).trans (TolerantMatches.best_counted hκ hbelow.found)

end Utterance
