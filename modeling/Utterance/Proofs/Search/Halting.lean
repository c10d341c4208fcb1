import Mathlib.Data.Finset.Prod
import Utterance.Proofs.Search.Ending

/-!
# Searches that happen to end

Optional words can form a cycle that consumes nothing, and then a search need not come to an
end.  Whether it does is settled early.  What a visit leads to depends on its state and on the
tokens that are left there, and of such pairs there are no more than states times numbers of
tokens.  A walk with more steps comes back to one of them (`exists_endless_walk`), and so there
are such walks of all lengths.  Hence if the levels of a search run out at all, they run out
before the bound on them does (`levels_eq_nil_of_levels_eq_nil`).

So if a search without a limit ends, a search with any limit ends as well, and with what it is
defined to find (`Halts.ends`): the first of the same paths (`Halts.exactPaths_limit`).
-/

namespace Utterance

/-- A walk with more steps than there are places to start them from comes back to one of these,
and so can be gone on with forever. -/
theorem exists_endless_walk {α : Type} {R : α → α → Prop} {walk : Nat → α} {n : Nat}
    {places : Finset α} (hstep : ∀ i < n, R (walk i) (walk (i + 1)))
    (hplaces : ∀ i < n, walk i ∈ places) (hcard : places.card < n) :
    ∃ endless : Nat → α, endless 0 = walk 0 ∧ ∀ k, R (endless k) (endless (k + 1)) := by
  classical
  obtain ⟨i, j, hlt, hjn, hsame⟩ : ∃ i j, i < j ∧ j < n ∧ walk i = walk j := by
    obtain ⟨i, hi, j, hj, hne, hsame⟩ := Finset.exists_ne_map_eq_of_card_lt_of_maps_to
      (s := Finset.range n) (t := places) (f := walk) (by rwa [Finset.card_range])
      fun i hi => hplaces i (Finset.mem_range.mp hi)
    rcases Nat.lt_or_gt_of_ne hne with hlt | hlt
    · exact ⟨i, j, hlt, Finset.mem_range.mp hj, hsame⟩
    · exact ⟨j, i, hlt, Finset.mem_range.mp hi, hsame.symm⟩
  -- where the second visit would come next, the first one does
  obtain ⟨next, hnext⟩ : ∃ next : Nat → Nat, ∀ m, next m = if m + 1 = j then i else m + 1 :=
    ⟨_, fun _ => rfl⟩
  have hbelow : ∀ k, next^[k] 0 < j := by
    intro k
    induction k with
    | zero => exact Nat.zero_lt_of_lt hlt
    | succ k ih =>
        rw [Function.iterate_succ_apply', hnext]
        split
        · exact hlt
        · omega
  have hsteps : ∀ m, walk (next m) = walk (m + 1) := by
    intro m
    rw [hnext]
    split
    next heq => rw [hsame, heq]
    next => rfl
  refine ⟨fun k => walk (next^[k] 0), rfl, fun k => ?_⟩
  simp only [Function.iterate_succ_apply', hsteps]
  exact hstep _ (Nat.lt_trans (hbelow k) hjn)

namespace Graph

variable {g : Graph} {o : SearchOptions} {optional : String → Bool} {start : Nat}
  {tokens : List String}

/-! ## Walks of a search -/

/-- From a state and what is left there, an edge leads to another state and what it leaves. -/
def Leads (g : Graph) (o : SearchOptions) (optional : String → Bool)
    (a b : Nat × List String) : Prop :=
  ∃ e matched, g.edge? a.1 b.1 = some e ∧ o.permits e = true ∧
    e.hear? o optional a.2 = some (matched, b.2)

/-- A step starts at a state of the graph, and leaves an end of what was left. -/
theorem Leads.lt_and_suffix {a b : Nat × List String} (h : g.Leads o optional a b) :
    a.1 < g.size ∧ b.2 <:+ a.2 := by
  obtain ⟨e, matched, he, -, hhear⟩ := h
  exact ⟨lt_size_of_edge? he, matched, (Edge.takes_of_hear? hhear).2.symm⟩

theorem leads_iff (hg : g.Valid) {v : Visit} {b : Nat × List String} :
    g.Leads o optional (v.state, v.rest) b ↔
      ∃ w ∈ g.advance o optional v, (w.state, w.rest) = b := by
  constructor
  · rintro ⟨e, matched, he, hpermits, hhear⟩
    obtain ⟨-, htarget⟩ := hg.of_edge? he
    refine ⟨⟨b.1, b.2, ⟨v.state, b.1, matched⟩ :: v.back⟩, ?_, rfl⟩
    refine mem_advance.mpr ⟨e, ?_, matched, hhear, htarget.symm, by rw [← htarget]⟩
    exact List.mem_filter.mpr ⟨hg.mem_edgesFrom.mpr (htarget ▸ he), hpermits⟩
  · rintro ⟨w, hw, rfl⟩
    obtain ⟨e, he, matched, hhear, hstate, -⟩ := mem_advance.mp hw
    obtain ⟨hmem, hpermits⟩ := List.mem_filter.mp he
    exact ⟨e, matched, hstate ▸ hg.mem_edgesFrom.mp hmem, hpermits, hhear⟩

theorem levels_append (level more : List Visit) (k : Nat) :
    g.levels o optional (level ++ more) k =
      g.levels o optional level k ++ g.levels o optional more k := by
  induction k generalizing level more with
  | zero => rfl
  | succ k ih => rw [levels, List.flatMap_append, ih, levels, levels]

theorem levels_ne_nil_iff {level : List Visit} {k : Nat} :
    g.levels o optional level k ≠ [] ↔ ∃ v ∈ level, g.levels o optional [v] k ≠ [] := by
  induction level with
  | nil => simp [levels_nil]
  | cons v level ih =>
      rw [← List.singleton_append, levels_append, Ne, List.append_eq_nil_iff, not_and_or, ← Ne,
        ← Ne, ih]
      simp

/-- A level is reached if there is a walk of as many steps. -/
theorem levels_ne_nil_iff_walk (hg : g.Valid) {k : Nat} : ∀ {v : Visit},
    g.levels o optional [v] k ≠ [] ↔ ∃ walk : Nat → Nat × List String,
      walk 0 = (v.state, v.rest) ∧ ∀ i < k, g.Leads o optional (walk i) (walk (i + 1)) := by
  induction k with
  | zero => exact ⟨fun _ => ⟨fun _ => _, rfl, fun i hi => (Nat.not_lt_zero i hi).elim⟩,
      fun _ => List.cons_ne_nil _ _⟩
  | succ k ih =>
      intro v
      rw [levels, List.flatMap_singleton, levels_ne_nil_iff]
      constructor
      · rintro ⟨w, hw, hlater⟩
        obtain ⟨walk, hfirst, hstep⟩ := ih.mp hlater
        refine ⟨fun i => i.casesOn (v.state, v.rest) walk, rfl, fun i hi => ?_⟩
        cases i with
        | zero => exact (leads_iff hg).mpr ⟨w, hw, hfirst.symm⟩
        | succ i => exact hstep i (Nat.lt_of_succ_lt_succ hi)
      · rintro ⟨walk, hfirst, hstep⟩
        have hlead := hstep 0 (Nat.succ_pos k)
        rw [hfirst] at hlead
        obtain ⟨w, hw, hnext⟩ := (leads_iff hg).mp hlead
        exact ⟨w, hw, ih.mpr ⟨fun i => walk (i + 1), hnext.symm,
          fun i hi => hstep (i + 1) (Nat.succ_lt_succ hi)⟩⟩

/-- If the levels run out at all, they run out when there are more of them than pairs of a state
and an end of the tokens. -/
theorem levels_eq_nil_of_levels_eq_nil (hg : g.Valid) {k : Nat}
    (hk : g.levels o optional [⟨start, tokens, []⟩] k = []) :
    g.levels o optional [⟨start, tokens, []⟩] (g.size * (tokens.length + 1) + 1) = [] := by
  by_contra hne
  obtain ⟨walk, hfirst, hstep⟩ := (levels_ne_nil_iff_walk hg).mp hne
  have hsuffix : ∀ i ≤ g.size * (tokens.length + 1) + 1, (walk i).2 <:+ tokens := by
    intro i
    induction i with
    | zero => exact fun _ => by rw [hfirst]
    | succ i ih => exact fun hi =>
        (hstep i hi).lt_and_suffix.2.trans (ih (Nat.le_of_succ_le hi))
  let places := Finset.range g.size ×ˢ tokens.tails.toFinset
  have hplaces : ∀ i < g.size * (tokens.length + 1) + 1, walk i ∈ places := fun i hi =>
    Finset.mem_product.mpr ⟨Finset.mem_range.mpr (hstep i hi).lt_and_suffix.1,
      List.mem_toFinset.mpr ((List.mem_tails _ _).mpr (hsuffix i (Nat.le_of_lt hi)))⟩
  have hcard : places.card < g.size * (tokens.length + 1) + 1 := by
    rw [Finset.card_product, Finset.card_range, Nat.lt_succ_iff, ← List.length_tails]
    exact Nat.mul_le_mul_left _ (List.toFinset_card_le _)
  obtain ⟨endless, hstart, hendless⟩ := exists_endless_walk hstep hplaces hcard
  exact (levels_ne_nil_iff_walk hg).mpr ⟨endless, hstart.trans hfirst, fun i _ => hendless i⟩ hk

/-! ## Searches that end -/

/-- An exact search comes to an end: after some number of turns nothing waits. -/
def Halts (g : Graph) (o : SearchOptions) (optional : String → Bool) (limit : Option Nat)
    (tokens : List String) : Prop :=
  ∃ n, ((Loop.turn (g.exactVisit o optional limit))^[n] (g.exactLoop tokens)).waiting = []

/-- Without a limit, what waits after so many levels is the next one. -/
theorem waiting_rounds_exactVisit (k : Nat) (found : List Path) (level : List Visit) :
    ((Loop.round (g.exactVisit o optional none))^[k] ⟨found, level⟩).waiting =
      g.levels o optional level k := by
  induction k generalizing found level with
  | zero => rfl
  | succ k ih =>
      rw [Function.iterate_succ_apply, Loop.round, sweep_exactVisit_none, Option.getD_some]
      exact ih _ _

theorem Halts.levels_eq_nil (hg : g.Valid)
    (hloop : g.exactLoop tokens = ⟨[], [⟨start, tokens, []⟩]⟩)
    (h : g.Halts o optional none tokens) :
    g.levels o optional [⟨start, tokens, []⟩] (g.size * (tokens.length + 1) + 1) = [] := by
  obtain ⟨n, hn⟩ := h
  have hnil := Loop.rounds_waiting_eq_nil hn
  rw [hloop, waiting_rounds_exactVisit] at hnil
  exact levels_eq_nil_of_levels_eq_nil hg hnil

/-- A search ends with what it is defined to find, under any limit, if it ends without one. -/
theorem Halts.ends (hg : g.Valid) (h : g.Halts o optional none tokens) (limit : Option Nat) :
    ∃ n, (Loop.turn (g.exactVisit o optional limit))^[n] (g.exactLoop tokens) =
      ⟨g.exactPaths o tokens optional limit, []⟩ := by
  rcases g.exactLoop_cases tokens with ⟨hloop, hnone⟩ | ⟨start, hstart, -, hloop⟩
  · exact ⟨0, by rw [hloop, hnone]; rfl⟩
  have hnil := h.levels_eq_nil hg hloop
  -- every visit is on the level of its depth
  refine (ends_exactVisit hstart
    (P := fun v => v ∈ g.levels o optional [⟨start, tokens, []⟩] v.back.length)
    (fun v hv w hw => ?_) (List.mem_singleton_self _) (fun v hv => ?_) (Nat.le_refl _) limit).2
  · obtain ⟨e, -, matched, -, -, hback⟩ := mem_advance.mp hw
    rw [hback, List.length_cons, levels_add]
    exact List.mem_flatMap.mpr ⟨v, hv, hw⟩
  · by_contra hlong
    obtain ⟨more, hmore⟩ := Nat.exists_eq_add_of_lt (Nat.lt_of_not_le hlong)
    rw [hmore, Nat.add_right_comm, levels_add, hnil, levels_nil] at hv
    exact List.not_mem_nil hv

/-- With a limit, a search that ends finds the first of the paths. -/
theorem Halts.exactPaths_limit (hg : g.Valid) (h : g.Halts o optional none tokens) {k : Nat}
    (hk : 1 ≤ k) :
    g.exactPaths o tokens optional (some k) = (g.exactPaths o tokens optional).take k := by
  rcases g.exactLoop_cases tokens with ⟨-, hnone⟩ | ⟨start, hstart, hne, hloop⟩
  · rw [hnone, hnone, List.take_nil]
  · exact Graph.exactPaths_limit hstart hne (h.levels_eq_nil hg hloop) hk

/-- Without silent cycles, and without optional words, a search ends. -/
theorem Acyclic.halts (hcycles : g.Acyclic fun e => e.isEpsilon) (hg : g.Valid)
    (limit : Option Nat) (tokens : List String) :
    g.Halts o (fun _ => false) limit tokens := by
  rcases g.exactLoop_cases tokens with ⟨hloop, -⟩ | ⟨start, hstart, -, -⟩
  · exact ⟨0, by rw [hloop]; rfl⟩
  · obtain ⟨n, hn⟩ := exactLoop_ends (o := o) hcycles hg hstart limit tokens
    exact ⟨n, congrArg Loop.waiting hn⟩

/-- In a compiled graph a search ends, whatever words are optional. -/
theorem halts_ofSentences {l : IntentSentences} {t : Table} {c : CompileOptions}
    (hg : Graph.ofSentences l t c = .ok g) (limit : Option Nat) (tokens : List String) :
    g.Halts o optional limit tokens := by
  have hascending := ascending_ofSentences hg
  have hstart := start_ofSentences hg
  have hlt := (consistent_ofSentences hg).start_lt 0 hstart
  obtain ⟨-, n, hn⟩ := turns_exactVisit (o := o) hascending.valid hstart (within_start hlt tokens)
    Within.length_back_le (within_bound hlt tokens) (Within.hear hascending) limit
  exact ⟨n, congrArg Loop.waiting hn⟩

end Graph

end Utterance
