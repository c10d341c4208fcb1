import Utterance.Proofs.Search.Cycles
import Utterance.Proofs.Search.Tolerance

/-!
# A tolerant search loses no best match

In a graph without cycles a path that counts costs less than the words it says,
so less than it has steps, and it has no more steps than there are states.  So
the ceiling, which starts at the number of states, cuts off no such path before a
match is recorded, and after that only paths that are more expensive
(`mem_recorded_of_arrives`).  Hence the best matches are the cheapest of all paths
that count, and there are none only if no path counts (`best_usualMatches`).
-/

namespace Utterance

namespace Graph

variable {g : Graph} {o : SearchOptions} {stopWords tokens : List String} {start : Nat}

theorem Passes.follows {p : Path} {a : Nat} {rest : List String} {cost : ℚ}
    (hp : g.Passes o stopWords start tokens p a rest cost) :
    g.Follows (fun e _ => o.permits e = true) start p a := by
  induction hp with
  | start => exact .nil start
  | step _ he hpermits _ ih => exact ih.trans (.single he hpermits)

section

variable (hg : g.Valid) (hcycles : g.Acyclic fun _ => True) (hstart : g.start = some start)

include hg hcycles hstart

/-- A match is recorded, or one that is cheaper has been. -/
theorem mem_recorded_of_arrives {m : TolerantMatch ℚ} (hm : g.Arrives o stopWords tokens m) :
    m ∈ g.recorded o stopWords start tokens ∨
      ∃ n ∈ g.recorded o stopWords start tokens, n.cost < m.cost := by
  obtain ⟨start', final, rest, cost, hstart', hfinal, hp, hcounts, hcost, hintent⟩ := hm
  obtain rfl : start = start' := Option.some.inj (hstart.symm.trans hstart')
  have hlength : m.path.length ≤ g.size := hp.follows.length_le_size hcycles
  have hsaid : g.saidOn m.path ≤ g.size := (List.countP_le_length).trans hlength
  have hsize : cost ≤ g.size := hcounts.le.trans (Nat.cast_le.mpr hsaid)
  have hbound : m.path.length < g.tolerantBound tokens := by
    have hone : g.size + 1 ≤ g.tolerantBound tokens :=
      Nat.le_mul_of_pos_right _ (Nat.succ_pos _)
    omega
  have hrest : cost ≤ m.cost := by
    rw [hcost]
    exact le_add_of_nonneg_right (Nat.cast_nonneg _)
  by_cases hleast : ∀ n ∈ g.recorded o stopWords start tokens, cost ≤ n.cost
  · have hmem := mem_recorded hg hp hfinal hcounts hbound hsize hleast
    rw [← hintent, ← hcost] at hmem
    exact .inl hmem
  · simp only [not_forall, not_le] at hleast
    obtain ⟨n, hn, hlt⟩ := hleast
    exact .inr ⟨n, hn, hlt.trans_le hrest⟩

/-- The cheapest of the matches recorded are the cheapest of all. -/
theorem least_recorded_iff {m : TolerantMatch ℚ} :
    (m ∈ g.recorded o stopWords start tokens ∧
        ∀ n ∈ g.recorded o stopWords start tokens, m.cost ≤ n.cost) ↔
      g.Arrives o stopWords tokens m ∧ ∀ n, g.Arrives o stopWords tokens n → m.cost ≤ n.cost := by
  constructor
  · rintro ⟨hm, hleast⟩
    refine ⟨arrives_of_mem_recorded hg hstart hm, fun n hn => ?_⟩
    rcases mem_recorded_of_arrives hg hcycles hstart hn with hn | ⟨k, hk, hlt⟩
    · exact hleast n hn
    · exact (hleast k hk).trans hlt.le
  · rintro ⟨hm, hleast⟩
    have hall : ∀ n ∈ g.recorded o stopWords start tokens, m.cost ≤ n.cost := fun n hn =>
      hleast n (arrives_of_mem_recorded hg hstart hn)
    refine ⟨?_, hall⟩
    rcases mem_recorded_of_arrives hg hcycles hstart hm with hm | ⟨n, hn, hlt⟩
    · exact hm
    · exact absurd (hall n hn) (not_le.mpr hlt)

variable (hne : tokens ≠ [])

include hne

/-- The best matches are the cheapest of all. -/
theorem mem_best_iff {m : TolerantMatch ℚ} :
    m ∈ (g.usualMatches o stopWords tokens).best ↔
      g.Arrives o stopWords tokens m ∧ ∀ n, g.Arrives o stopWords tokens n → m.cost ≤ n.cost := by
  rw [(tabulates_usualMatches hstart hne).mem_best]
  exact least_recorded_iff hg hcycles hstart

/-- There are none only if nothing matches. -/
theorem best_eq_nil_iff :
    (g.usualMatches o stopWords tokens).best = [] ↔ ∀ m, ¬ g.Arrives o stopWords tokens m := by
  have htable : (g.usualMatches o stopWords tokens).Tabulates
      (g.recorded o stopWords start tokens) := tabulates_usualMatches hstart hne
  rw [List.eq_nil_iff_forall_not_mem]
  refine ⟨fun hnil m hm => ?_, fun hnone m hm => ?_⟩
  · have hrecorded : g.recorded o stopWords start tokens ≠ [] := by
      rcases mem_recorded_of_arrives hg hcycles hstart hm with hm | ⟨n, hn, -⟩
      · exact List.ne_nil_of_mem hm
      · exact List.ne_nil_of_mem hn
    obtain ⟨n, hn⟩ := exists_mem_cheapest hrecorded
    exact hnil n (htable.mem_best.mpr (mem_cheapest.mp hn))
  · exact hnone m ((mem_best_iff hg hcycles hstart hne).mp hm).1

end

/-- In a graph without cycles the best matches of a tolerant search are the
cheapest of all paths that count, each once and by the names of their intents.
There are none only if no path counts, and what is kept for one intent has one
cost. -/
theorem best_usualMatches (hg : g.Valid) (hcycles : g.Acyclic fun _ => True)
    (hstart : g.start = some start) (hne : tokens ≠ []) :
    (∀ m, m ∈ (g.usualMatches o stopWords tokens).best ↔
        g.Arrives o stopWords tokens m ∧ ∀ n, g.Arrives o stopWords tokens n → m.cost ≤ n.cost) ∧
      ((g.usualMatches o stopWords tokens).best = [] ↔ ∀ m, ¬ g.Arrives o stopWords tokens m) ∧
      ((g.usualMatches o stopWords tokens).best.map TolerantMatch.path).Nodup ∧
      ((g.usualMatches o stopWords tokens).best.map TolerantMatch.intent).Pairwise (· ≤ ·) ∧
      ∀ q ∈ g.usualMatches o stopWords tokens, ∀ m ∈ q.2,
        m.intent = q.1 ∧ ∀ n ∈ q.2, m.cost = n.cost := by
  have htable : (g.usualMatches o stopWords tokens).Tabulates
      (g.recorded o stopWords start tokens) := tabulates_usualMatches hstart hne
  have hpaths : ((g.recorded o stopWords start tokens).map TolerantMatch.path).Nodup :=
    nodup_recorded hg
  refine ⟨fun m => mem_best_iff hg hcycles hstart hne, best_eq_nil_iff hg hcycles hstart hne, ?_,
    htable.pairwise_best, fun q hq m hm => ?_⟩
  · refine List.Nodup.map_on (fun m hm n hn heq => ?_) (htable.nodup_best hpaths.of_map)
    exact List.inj_on_of_nodup_map hpaths (htable.mem_best.mp hm).1 (htable.mem_best.mp hn).1 heq
  · obtain ⟨first, -, -, hsame⟩ := htable.exists_head hq
    exact ⟨(htable.mem_kept hq hm).2.1, fun n hn => (hsame m hm).trans (hsame n hn).symm⟩

end Graph

/-- `dim light` for one intent, and `light` alone for the other. -/
def lightGraph : Graph :=
  ((((((({} : Graph).addState.addState.addState.addState.addState.setStart 0).setFinal 4).addEdge
    0 1 "" "__label__Dim").addEdge 1 2 "dim" "dim").addEdge 2 4 "light" "light").addEdge
    0 3 "" "__label__Light").addEdge 3 4 "light" "light"

theorem valid_lightGraph : lightGraph.Valid := by
  have hstates : (({} : Graph).addState.addState.addState.addState.addState).Valid :=
    ((((Graph.valid_empty.addState none).addState none).addState none).addState none).addState none
  have hends :
      ((({} : Graph).addState.addState.addState.addState.addState.setStart 0).setFinal 4).Valid :=
    hstates.congr (fun _ => rfl) rfl
  exact ((((hends.addEdge (by decide) 1 _ _).addEdge (by decide) 2 _ _).addEdge (by decide) 4 _
    _).addEdge (by decide) 3 _ _).addEdge (by decide) 4 _ _

/-- Two words are passed over, one of them a stop word.  The other intent's path
does not say enough words for that. -/
theorem best_lightGraph :
    (lightGraph.usualMatches {} ["the"] ["please", "dim", "the", "light"]).best =
        [⟨"Dim", [⟨0, 1, []⟩, ⟨1, 2, ["dim"]⟩, ⟨2, 4, ["light"]⟩], 11 / 10⟩] ∧
      ∀ m, lightGraph.Arrives {} ["the"] ["please", "dim", "the", "light"] m →
        11 / 10 ≤ m.cost := by
  have hbest : (lightGraph.usualMatches {} ["the"] ["please", "dim", "the", "light"]).best =
      [⟨"Dim", [⟨0, 1, []⟩, ⟨1, 2, ["dim"]⟩, ⟨2, 4, ["light"]⟩], 11 / 10⟩] := by decide +kernel
  have hcycles : lightGraph.Acyclic fun _ => True :=
    valid_lightGraph.acyclic (by decide)
  obtain ⟨hmem, -⟩ := Graph.best_usualMatches (o := {}) valid_lightGraph hcycles
    (show lightGraph.start = some 0 from rfl)
    (List.cons_ne_nil "please" ["dim", "the", "light"])
  exact ⟨hbest, ((hmem _).mp (hbest ▸ List.mem_cons_self)).2⟩

end Utterance
