import Mathlib.Tactic.Linarith
import Utterance.Proofs.Search.Cheapest
import Utterance.Proofs.Search.Follows
import Utterance.Proofs.Search.Found

/-!
# What a tolerant search records

With costs as exact numbers, a path is *passed* at a running cost that adds up
what its edges cost in front of the tokens left there (`Graph.Passes`).  It counts
if it leads to the final state and costs less than the words it says
(`Graph.Arrives`).

A search records the paths in `arrivals`, and what it holds at the end is what one
gets by noting these in turn (`run_eq`).  They count (`arrives_of_mem_recorded`),
and none is recorded twice (`nodup_arrivals`).  The ceiling only falls, and costs
are not negative, so what costs no more than the ceiling at the end has never been
given up (`mem_arrivals`).
-/

namespace Utterance

/-! ## Paths at a cost -/

theorem le_of_scanTokens {o : SearchOptions} {stopWords : List String} {word : String} :
    ∀ {tokens : List String} {cost : ℚ} {skipped : Nat} {h : Hearing ℚ},
      scanTokens o stopWords word cost skipped tokens = some h → cost ≤ h.cost
  | [], _, _, _, hh => by cases hh
  | token :: rest, cost, skipped, h, hh => by
      rw [scanTokens] at hh
      split at hh
      next =>
        cases hh
        exact le_refl _
      next =>
        have hmore : (0 : ℚ) ≤
            if stopWords.contains (o.transform token) then Cost.tenth else Cost.ofNat 1 := by
          split <;> simp
        exact (le_add_of_nonneg_right hmore).trans (le_of_scanTokens hh)

theorem usualCost_nonneg {o : SearchOptions} {stopWords : List String} {word : String}
    {tokens : List String} {h : Hearing ℚ} (hh : usualCost o stopWords word tokens = some h) :
    0 ≤ h.cost := by
  unfold usualCost at hh
  split at hh
  next =>
    cases hh
    simp
  next =>
    cases tokens with
    | nil => cases hh
    | cons token rest =>
        simp only at hh
        split at hh
        · cases hh
          simp
        · have hle := le_of_scanTokens hh
          simpa using hle

/-- A word is said on the edge. -/
def Edge.says (e : Edge) : Bool := !(e.output.isEmpty || Label.isControl e.output)

namespace Graph

/-- How many words are said on a path. -/
def saidOn (g : Graph) (p : Path) : Nat :=
  p.countP fun s => (g.edge? s.source s.target).any Edge.says

/-- `g.Passes o stopWords start tokens p s rest cost`: from `start`, with the
tokens in front, the path leads along permitted edges to `s`, where `rest` is left
of the tokens.  `cost` is what the edges on the way cost in all. -/
inductive Passes (g : Graph) (o : SearchOptions) (stopWords : List String) (start : Nat)
    (tokens : List String) : Path → Nat → List String → ℚ → Prop where
  | start : Passes g o stopWords start tokens [] start tokens 0
  | step {p : Path} {a b : Nat} {rest : List String} {cost : ℚ} {e : Edge} {h : Hearing ℚ} :
      Passes g o stopWords start tokens p a rest cost → g.edge? a b = some e →
      o.permits e = true → usualCost o stopWords e.input rest = some h →
      Passes g o stopWords start tokens (p ++ [⟨a, b, h.matched⟩]) b (rest.drop h.consumed)
        (cost + h.cost)

/-- The path of the match is passed from the start to the final state, at less
than the number of words said on it.  One is added to its cost for every token
that is left, and its intent is the last one entered. -/
def Arrives (g : Graph) (o : SearchOptions) (stopWords tokens : List String)
    (m : TolerantMatch ℚ) : Prop :=
  ∃ start final rest cost, g.start = some start ∧ g.final = some final ∧
    g.Passes o stopWords start tokens m.path final rest cost ∧ cost < g.saidOn m.path ∧
    m.cost = cost + rest.length ∧ m.intent = (g.intentsOn m.path).getLast?.getD ""

end Graph

namespace TolerantSearch

/-! ## Noting matches -/

/-- Adds a match and lowers the ceiling to its cost. -/
def note (s : TolerantSearch ℚ) (m : TolerantMatch ℚ) : TolerantSearch ℚ :=
  ⟨s.found.add m, min s.ceiling m.cost⟩

def noteAll (s : TolerantSearch ℚ) (l : List (TolerantMatch ℚ)) : TolerantSearch ℚ := l.foldl note s

theorem found_noteAll (l : List (TolerantMatch ℚ)) (s : TolerantSearch ℚ) :
    (s.noteAll l).found = l.foldl (fun ms m => ms.add m) s.found := by
  induction l generalizing s with
  | nil => rfl
  | cons m l ih => exact ih (s.note m)

theorem le_ceiling_noteAll {cost : ℚ} (l : List (TolerantMatch ℚ)) (s : TolerantSearch ℚ) :
    cost ≤ (s.noteAll l).ceiling ↔ cost ≤ s.ceiling ∧ ∀ m ∈ l, cost ≤ m.cost := by
  induction l generalizing s with
  | nil => simp [noteAll]
  | cons m l ih =>
      have hfirst : cost ≤ (s.note m).ceiling ↔ cost ≤ s.ceiling ∧ cost ≤ m.cost := le_min_iff
      rw [List.forall_mem_cons, ← and_assoc, ← hfirst]
      exact ih (s.note m)

theorem noteAll_append (s : TolerantSearch ℚ) (l l' : List (TolerantMatch ℚ)) :
    s.noteAll (l ++ l') = (s.noteAll l).noteAll l' := List.foldl_append

/-- The match that a visit has come to, if it is at the end of a path that
counts. -/
def arrival? (g : Graph) (v : TolerantVisit ℚ) : Option (TolerantMatch ℚ) :=
  if g.final = some v.state ∧ v.cost < v.said then
    some ⟨v.intent.getD "", v.back.reverse, v.cost + v.rest.length⟩
  else none

variable {g : Graph} {o : SearchOptions} {rule : CostRule ℚ}

theorem record_eq (s : TolerantSearch ℚ) (v : TolerantVisit ℚ) :
    s.record g v = s.noteAll (arrival? g v).toList := by
  have hcond : (g.isFinal v.state && Cost.less v.cost (Cost.ofNat v.said)) = true ↔
      g.final = some v.state ∧ v.cost < v.said := by
    simp [Graph.isFinal]
  unfold record arrival?
  by_cases h : g.final = some v.state ∧ v.cost < v.said
  · rw [if_pos (hcond.mpr h), if_pos h]
    exact congrArg (TolerantSearch.mk _) (Cost.ite_less_rat _ _)
  · rw [if_neg (mt hcond.mp h), if_neg h]
    rfl

/-! ## What a level records, and what follows it -/

/-- A level records the visits that have arrived. -/
theorem sweep_fst (s : TolerantSearch ℚ) (level : List (TolerantVisit ℚ)) :
    (sweep g o rule s level).1 = s.noteAll (level.filterMap (arrival? g)) := by
  induction level generalizing s with
  | nil => rfl
  | cons v level ih =>
      have hfirst : (v :: level).filterMap (arrival? g) =
          (arrival? g v).toList ++ level.filterMap (arrival? g) := by
        rw [List.filterMap_cons]
        cases arrival? g v <;> rfl
      rw [hfirst, noteAll_append, ← record_eq]
      exact ih _

theorem sweep_snd_sublist {κ : Type} [Cost κ] {rule : CostRule κ} (s : TolerantSearch κ)
    (level : List (TolerantVisit κ)) :
    (sweep g o rule s level).2.Sublist (level.flatMap (advance g o rule)) := by
  induction level generalizing s with
  | nil => exact List.Sublist.slnil
  | cons v level ih =>
      rw [List.flatMap_cons]
      refine List.Sublist.append ?_ (ih _)
      split
      · exact List.nil_sublist _
      · exact List.Sublist.refl _

/-- A visit that costs no more than the ceiling after its level goes on. -/
theorem mem_sweep_snd {v w : TolerantVisit ℚ} (hw : w ∈ advance g o rule v) :
    ∀ {level : List (TolerantVisit ℚ)} {s : TolerantSearch ℚ}, v ∈ level →
      v.cost ≤ (sweep g o rule s level).1.ceiling → w ∈ (sweep g o rule s level).2
  | u :: level, s, hv, hcost => by
      refine List.mem_append.mpr ?_
      rcases List.mem_cons.mp hv with rfl | hv
      · -- the ceiling at its turn was no lower
        have hturn : v.cost ≤ (s.record g v).ceiling := by
          rw [show (sweep g o rule s (v :: level)).1 = (sweep g o rule (s.record g v) level).1
            from rfl, sweep_fst, le_ceiling_noteAll] at hcost
          exact hcost.1
        refine .inl ?_
        rw [if_neg (by rw [Cost.less_rat, decide_eq_true_eq]; exact not_lt.mpr hturn)]
        exact hw
      · exact .inr (mem_sweep_snd hw hv hcost)

/-! ## What a search records -/

/-- The matches that a search notes, level by level. -/
def arrivals (g : Graph) (o : SearchOptions) (rule : CostRule ℚ) :
    Nat → TolerantSearch ℚ → List (TolerantVisit ℚ) → List (TolerantMatch ℚ)
  | 0, _, _ => []
  | bound + 1, s, level =>
    level.filterMap (arrival? g) ++
      arrivals g o rule bound (sweep g o rule s level).1 (sweep g o rule s level).2

theorem run_succ {κ : Type} [Cost κ] {rule : CostRule κ} (bound : Nat) (s : TolerantSearch κ)
    (level : List (TolerantVisit κ)) :
    run g o rule (bound + 1) s level =
      run g o rule bound (sweep g o rule s level).1 (sweep g o rule s level).2 := by
  cases level with
  | nil =>
      have hnil : run g o rule bound s [] = s := by cases bound <;> rfl
      exact hnil.symm
  | cons v level => rfl

/-- What a search holds at the end. -/
theorem run_eq (bound : Nat) (s : TolerantSearch ℚ) (level : List (TolerantVisit ℚ)) :
    run g o rule bound s level = s.noteAll (arrivals g o rule bound s level) := by
  induction bound generalizing s level with
  | zero => rfl
  | succ bound ih => rw [run_succ, ih, arrivals, noteAll_append, ← sweep_fst]

/-- What holds at the start and goes on from visit to visit holds of all that have
arrived. -/
theorem of_mem_arrivals {P : TolerantVisit ℚ → Prop}
    (hP : ∀ {v w}, P v → w ∈ advance g o rule v → P w) {m : TolerantMatch ℚ} :
    ∀ {bound : Nat} {s : TolerantSearch ℚ} {level : List (TolerantVisit ℚ)},
      (∀ v ∈ level, P v) → m ∈ arrivals g o rule bound s level →
      ∃ v, P v ∧ arrival? g v = some m
  | 0, _, _, _, hm => (List.not_mem_nil hm).elim
  | bound + 1, s, level, hlevel, hm => by
      rcases List.mem_append.mp hm with hm | hm
      · obtain ⟨v, hv, harrives⟩ := List.mem_filterMap.mp hm
        exact ⟨v, hlevel v hv, harrives⟩
      · refine of_mem_arrivals hP (fun w hw => ?_) hm
        obtain ⟨v, hv, hw⟩ := List.mem_flatMap.mp ((sweep_snd_sublist s level).subset hw)
        exact hP (hlevel v hv) hw

theorem of_mem_advance {κ : Type} [Cost κ] {rule : CostRule κ} {v w : TolerantVisit κ}
    (hw : w ∈ advance g o rule v) :
    ∃ e ∈ g.permitted o v.state, ∃ h, rule e.input v.rest = some h ∧
      w = ⟨e.target, v.rest.drop h.consumed, ⟨v.state, e.target, h.matched⟩ :: v.back,
        if e.says then v.said + 1 else v.said, Cost.add v.cost h.cost,
        (Label.intent? e.output).or v.intent⟩ := by
  obtain ⟨e, he, hcross⟩ := List.mem_filterMap.mp hw
  obtain ⟨h, hh, rfl⟩ := Option.map_eq_some_iff.mp hcross
  refine ⟨e, he, h, hh, ?_⟩
  unfold Edge.says
  cases e.output.isEmpty || Label.isControl e.output <;> rfl

theorem path_of_arrival? {v : TolerantVisit ℚ} {m : TolerantMatch ℚ}
    (h : arrival? g v = some m) : m.path = v.back.reverse := by
  unfold arrival? at h
  split at h
  · cases h
    rfl
  · cases h

/-- No path is recorded twice. -/
theorem nodup_arrivals (hg : g.Valid) {bound k : Nat} {s : TolerantSearch ℚ}
    {level : List (TolerantVisit ℚ)} (hlevel : (level.map TolerantVisit.back).Nodup)
    (hlength : ∀ v ∈ level, v.back.length = k) :
    ((arrivals g o rule bound s level).map TolerantMatch.path).Nodup := by
  induction bound generalizing k s level with
  | zero => exact List.nodup_nil
  | succ bound ih =>
      have hnext : ∀ w ∈ (sweep g o rule s level).2, w.back.length = k + 1 := fun w hw => by
        obtain ⟨v, hv, hw⟩ := List.mem_flatMap.mp ((sweep_snd_sublist s level).subset hw)
        obtain ⟨e, -, h, -, rfl⟩ := of_mem_advance hw
        rw [List.length_cons, hlength v hv]
      have hdistinct : ((sweep g o rule s level).2.map TolerantVisit.back).Nodup := by
        refine List.Nodup.sublist ((sweep_snd_sublist s level).map _) ?_
        refine nodup_trails (fun v => g.permitted o v.state)
          (fun v => hg.nodup_permitted o v.state) ?_ hlevel
        intro v e w hw
        obtain ⟨h, -, rfl⟩ := Option.map_eq_some_iff.mp hw
        exact ⟨_, rfl, rfl⟩
      rw [arrivals, List.map_append]
      refine List.Nodup.append ?_ (ih hdistinct hnext) ?_
      · rw [List.Nodup, List.pairwise_map, List.pairwise_filterMap]
        refine (List.pairwise_map.mp hlevel).imp fun {v w} hne m hm n hn heq => hne ?_
        rw [path_of_arrival? hm, path_of_arrival? hn] at heq
        exact List.reverse_injective heq
      · -- later paths are longer
        rw [List.disjoint_left]
        intro p hp hp'
        obtain ⟨m, hm, rfl⟩ := List.mem_map.mp hp
        obtain ⟨n, hn, heq⟩ := List.mem_map.mp hp'
        obtain ⟨v, hv, hm⟩ := List.mem_filterMap.mp hm
        have hlater : ∀ w ∈ (sweep g o rule s level).2, k < w.back.length := fun w hw =>
          (hnext w hw).symm ▸ Nat.lt_succ_self k
        obtain ⟨w, hw, hn⟩ := of_mem_arrivals (P := fun w => k < w.back.length)
          (fun hv hw => by
            obtain ⟨e, -, h, -, rfl⟩ := of_mem_advance hw
            exact Nat.lt_succ_of_lt hv) hlater hn
        rw [path_of_arrival? hm, path_of_arrival? hn] at heq
        have := congrArg List.length heq
        rw [List.length_reverse, List.length_reverse, hlength v hv] at this
        omega

/-! ## What a search does not miss -/

/-- So many steps lead from one visit to the other. -/
inductive Leads (g : Graph) (o : SearchOptions) (rule : CostRule ℚ) :
    Nat → TolerantVisit ℚ → TolerantVisit ℚ → Prop where
  | refl (v : TolerantVisit ℚ) : Leads g o rule 0 v v
  | head {k : Nat} {u v w : TolerantVisit ℚ} :
      v ∈ advance g o rule u → Leads g o rule k v w → Leads g o rule (k + 1) u w

theorem Leads.tail {k : Nat} {u v w : TolerantVisit ℚ} (h : Leads g o rule k u v)
    (hw : w ∈ advance g o rule v) : Leads g o rule (k + 1) u w := by
  induction h with
  | refl v => exact .head hw (.refl w)
  | head hv _ ih => exact .head hv (ih hw)

section

variable {stopWords : List String}

theorem Leads.cost_le {k : Nat} {u w : TolerantVisit ℚ}
    (h : Leads g o (usualCost o stopWords) k u w) : u.cost ≤ w.cost := by
  induction h with
  | refl v => exact le_refl _
  | head hv _ ih =>
      obtain ⟨e, -, h, hh, rfl⟩ := of_mem_advance hv
      exact (le_add_of_nonneg_right (usualCost_nonneg hh)).trans ih

/-- What costs no more than the ceiling at the end has never been given up. -/
theorem mem_arrivals {k : Nat} {v w : TolerantVisit ℚ} {m : TolerantMatch ℚ}
    (h : Leads g o (usualCost o stopWords) k v w) (hm : arrival? g w = some m) :
    ∀ {bound : Nat} {s : TolerantSearch ℚ} {level : List (TolerantVisit ℚ)}, k < bound →
      v ∈ level → w.cost ≤ (run g o (usualCost o stopWords) bound s level).ceiling →
      m ∈ arrivals g o (usualCost o stopWords) bound s level := by
  induction h with
  | refl v =>
      intro bound s level hbound hv _
      obtain ⟨bound, rfl⟩ := Nat.exists_eq_succ_of_ne_zero (Nat.ne_of_gt hbound)
      exact List.mem_append_left _ (List.mem_filterMap.mpr ⟨v, hv, hm⟩)
  | @head k u v w hv hleads ih =>
      intro bound s level hbound hu hcost
      obtain ⟨bound, rfl⟩ := Nat.exists_eq_succ_of_ne_zero (Nat.ne_of_gt (Nat.zero_lt_of_lt hbound))
      rw [run_succ] at hcost
      have hturn : w.cost ≤ (sweep g o (usualCost o stopWords) s level).1.ceiling := by
        rw [run_eq, le_ceiling_noteAll] at hcost
        exact hcost.1
      have hnext := mem_sweep_snd hv hu (((hleads.head hv).cost_le).trans hturn)
      exact List.mem_append_right _ (ih hm (Nat.lt_of_succ_lt_succ hbound) hnext hcost)

/-! ## Visits and paths -/

variable {start : Nat} {tokens : List String}

/-- The visit has come along its path at its cost, and counts the words said and
knows the intent entered last. -/
structure Passed (g : Graph) (o : SearchOptions) (stopWords : List String) (start : Nat)
    (tokens : List String) (v : TolerantVisit ℚ) : Prop where
  passes : g.Passes o stopWords start tokens v.back.reverse v.state v.rest v.cost
  said_eq : v.said = g.saidOn v.back.reverse
  intent_eq : v.intent = (g.intentsOn v.back.reverse).getLast?

theorem Passed.advance (hg : g.Valid) {v w : TolerantVisit ℚ}
    (hv : Passed g o stopWords start tokens v)
    (hw : w ∈ TolerantSearch.advance g o (usualCost o stopWords) v) :
    Passed g o stopWords start tokens w := by
  obtain ⟨e, he, h, hh, rfl⟩ := of_mem_advance hw
  obtain ⟨hmem, hpermits⟩ := List.mem_filter.mp he
  have hedge := hg.mem_edgesFrom.mp hmem
  refine ⟨?_, ?_, ?_⟩
  · rw [List.reverse_cons]
    exact hv.passes.step hedge hpermits hh
  · rw [List.reverse_cons, Graph.saidOn, List.countP_append, List.countP_singleton, hedge,
      Option.any_some, hv.said_eq]
    cases e.says <;> rfl
  · rw [List.reverse_cons, Graph.intentsOn, List.filterMap_append, List.getLast?_append, hv.intent_eq]
    simp only [List.filterMap_cons, List.filterMap_nil, hedge, Option.bind_some]
    cases Label.intent? e.output <;> rfl

theorem Leads.passed (hg : g.Valid) {k : Nat} {u w : TolerantVisit ℚ}
    (h : Leads g o (usualCost o stopWords) k u w) (hu : Passed g o stopWords start tokens u) :
    Passed g o stopWords start tokens w := by
  induction h with
  | refl v => exact hu
  | head hv _ ih => exact ih (hu.advance hg hv)

/-- Where a search begins. -/
def first (start : Nat) (tokens : List String) : TolerantVisit ℚ := ⟨start, tokens, [], 0, 0, none⟩

theorem passed_first : Passed g o stopWords start tokens (first start tokens) :=
  ⟨.start, rfl, rfl⟩

/-- A path that is passed leads to a visit. -/
theorem exists_leads (hg : g.Valid) {p : Path} {a : Nat} {rest : List String} {cost : ℚ}
    (hp : g.Passes o stopWords start tokens p a rest cost) :
    ∃ said intent, Leads g o (usualCost o stopWords) p.length (first start tokens)
      ⟨a, rest, p.reverse, said, cost, intent⟩ := by
  induction hp with
  | start => exact ⟨0, none, .refl _⟩
  | @step p a b rest cost e h _ he hpermits hh ih =>
      obtain ⟨said, intent, hleads⟩ := ih
      obtain ⟨-, rfl⟩ := hg.of_edge? he
      have hmem : e ∈ g.permitted o a := List.mem_filter.mpr ⟨hg.mem_edgesFrom.mpr he, hpermits⟩
      refine ⟨if e.output.isEmpty || Label.isControl e.output then said else said + 1,
        (Label.intent? e.output).or intent, ?_⟩
      rw [List.length_append, List.length_singleton, List.reverse_append]
      exact hleads.tail (List.mem_filterMap.mpr ⟨e, hmem, Option.map_eq_some_iff.mpr ⟨h, hh, rfl⟩⟩)

/-- The visit at the end of a path that counts has arrived. -/
theorem Passed.arrival?_eq {v : TolerantVisit ℚ} (hv : Passed g o stopWords start tokens v)
    (hfinal : g.final = some v.state) (hcost : v.cost < g.saidOn v.back.reverse) :
    arrival? g v = some ⟨(g.intentsOn v.back.reverse).getLast?.getD "", v.back.reverse,
      v.cost + v.rest.length⟩ := by
  rw [← hv.said_eq] at hcost
  rw [arrival?, if_pos ⟨hfinal, hcost⟩, hv.intent_eq]

theorem Passed.arrives {v : TolerantVisit ℚ} (hv : Passed g o stopWords start tokens v)
    (hstart : g.start = some start) {m : TolerantMatch ℚ} (hm : arrival? g v = some m) :
    g.Arrives o stopWords tokens m := by
  unfold arrival? at hm
  split at hm
  next h =>
    cases hm
    refine ⟨start, v.state, v.rest, v.cost, hstart, h.1, hv.passes, ?_, rfl, ?_⟩
    · rw [← hv.said_eq]
      exact h.2
    · rw [← hv.intent_eq]
  next => cases hm

end

end TolerantSearch

namespace Graph

open TolerantSearch (first)

variable {g : Graph} {o : SearchOptions} {stopWords tokens : List String} {start : Nat}

/-! ## The matches of a search -/

/-- The cheapest paths of every intent at the usual costs, counted exactly. -/
def usualMatches (g : Graph) (o : SearchOptions) (stopWords tokens : List String) :
    TolerantMatches ℚ :=
  g.tolerantMatches o (usualCost o stopWords) tokens

/-- The matches that a search with the usual costs records. -/
def recorded (g : Graph) (o : SearchOptions) (stopWords : List String) (start : Nat)
    (tokens : List String) : List (TolerantMatch ℚ) :=
  TolerantSearch.arrivals g o (usualCost o stopWords) (g.tolerantBound tokens) ⟨[], g.size⟩
    [first start tokens]

theorem usualMatches_eq (hstart : g.start = some start) (hne : tokens ≠ []) :
    g.usualMatches o stopWords tokens =
      (TolerantSearch.run g o (usualCost o stopWords) (g.tolerantBound tokens) ⟨[], (g.size : ℚ)⟩
        [first start tokens]).found :=
  tolerantMatches_eq hstart hne

/-- The table at the end is that of all matches recorded. -/
theorem tabulates_usualMatches (hstart : g.start = some start) (hne : tokens ≠ []) :
    (g.usualMatches o stopWords tokens).Tabulates (g.recorded o stopWords start tokens) := by
  rw [usualMatches_eq hstart hne, TolerantSearch.run_eq, TolerantSearch.found_noteAll]
  exact TolerantMatches.tabulates_nil.foldl_add

theorem arrives_of_mem_recorded (hg : g.Valid) (hstart : g.start = some start)
    {m : TolerantMatch ℚ} (hm : m ∈ g.recorded o stopWords start tokens) :
    g.Arrives o stopWords tokens m := by
  have hfirst : ∀ v ∈ [first start tokens],
      TolerantSearch.Passed g o stopWords start tokens v := by
    intro v hv
    obtain rfl := List.mem_singleton.mp hv
    exact TolerantSearch.passed_first
  obtain ⟨v, hv, harrives⟩ := TolerantSearch.of_mem_arrivals
    (fun hv hw => hv.advance hg hw) hfirst hm
  exact hv.arrives hstart harrives

theorem nodup_recorded (hg : g.Valid) :
    ((g.recorded o stopWords start tokens).map TolerantMatch.path).Nodup := by
  refine TolerantSearch.nodup_arrivals (k := 0) hg (List.nodup_singleton _) fun v hv => ?_
  rw [List.mem_singleton.mp hv]
  rfl

/-- A path that counts is recorded, unless it is too long or costs more than there
are states or than something that is recorded. -/
theorem mem_recorded (hg : g.Valid) {p : Path} {final : Nat} {rest : List String} {cost : ℚ}
    (hp : g.Passes o stopWords start tokens p final rest cost) (hfinal : g.final = some final)
    (hcounts : cost < g.saidOn p) (hlength : p.length < g.tolerantBound tokens)
    (hsize : cost ≤ g.size)
    (hleast : ∀ n ∈ g.recorded o stopWords start tokens, cost ≤ n.cost) :
    ⟨(g.intentsOn p).getLast?.getD "", p, cost + rest.length⟩
      ∈ g.recorded o stopWords start tokens := by
  obtain ⟨said, intent, hleads⟩ := TolerantSearch.exists_leads hg hp
  have hpassed := hleads.passed hg TolerantSearch.passed_first
  have harrival := hpassed.arrival?_eq hfinal (by rwa [List.reverse_reverse])
  rw [List.reverse_reverse] at harrival
  refine TolerantSearch.mem_arrivals hleads harrival hlength List.mem_cons_self ?_
  rw [TolerantSearch.run_eq, TolerantSearch.le_ceiling_noteAll]
  exact ⟨hsize, hleast⟩

end Graph

end Utterance
