import Utterance.Proofs.Search.Cycles
import Utterance.Proofs.Search.Found

/-!
# An exact search lists the runs

A *run* on some tokens is a path from the start to the final state on which every
edge is permitted and matches what it hears, and on which all tokens are matched.

Without a limit a search finds the accepted visits of its levels
(`exactFrom_eq`).  The visits on a level have come along paths of one length, no
two along the same (`nodup_levels`).  If silent edges form no cycle such a path
is bounded by the number of states and tokens (`Follows.length_le`), so the levels
run out before the bound on them does (`levels_eq_nil`), and the search lists all
runs, each once, the shorter ones first (`exactPaths_lists_runs`).
-/

namespace Utterance

/-- The edge may be taken and hears exactly these tokens: none if it is silent,
and else one, which is its word unless it is a wildcard's. -/
def Edge.Hears (o : SearchOptions) (e : Edge) (matched : List String) : Prop :=
  (∀ intent, Label.intent? e.output = some intent → o.accepts intent = true) ∧
    ((e.input = "" ∧ matched = []) ∨
      (e.input ≠ "" ∧ ∃ token, matched = [token] ∧
        (e.input = wildcard ∨ o.transform e.input = o.transform token)))

/-- A path from the start to the final state on which the tokens are heard. -/
def Graph.Run (g : Graph) (o : SearchOptions) (tokens : List String) (p : Path) : Prop :=
  g.Crosses (Edge.Hears o) p ∧ p.tokens = tokens

/-- An edge that starts no intent may be taken. -/
theorem Edge.accepts_of_none {o : SearchOptions} {e : Edge}
    (hlabel : Label.intent? e.output = none) :
    ∀ intent, Label.intent? e.output = some intent → o.accepts intent = true := by
  intro intent h
  rw [hlabel] at h
  cases h

theorem Edge.hears_nil {o : SearchOptions} {e : Edge} (hlabel : Label.intent? e.output = none)
    (hinput : e.input = "") : e.Hears o [] :=
  ⟨accepts_of_none hlabel, .inl ⟨hinput, rfl⟩⟩

theorem Edge.hears_wildcard {o : SearchOptions} {e : Edge} (hlabel : Label.intent? e.output = none)
    (hinput : e.input = wildcard) (token : String) : e.Hears o [token] :=
  ⟨accepts_of_none hlabel, .inr ⟨hinput ▸ by decide, token, rfl, .inl hinput⟩⟩

/-- Where one edge leads on and it is silent, a path takes it. -/
theorem Graph.Follows.of_silent {g : Graph} {o : SearchOptions} {a b c : Nat} {p : Path} {e : Edge}
    (hp : g.Follows (Edge.Hears o) a p c) (hg : g.Valid) (hne : a ≠ c)
    (hedges : g.edgesFrom a = [e]) (hsilent : e.input = "") (htarget : e.target = b) :
    ∃ q, p = ⟨a, b, []⟩ :: q ∧ g.Follows (Edge.Hears o) b q c := by
  obtain ⟨e', he', matched, q, rfl, hhears, hq⟩ := hp.exists_cons hg hne
  rw [hedges] at he'
  obtain rfl := List.mem_singleton.mp he'
  obtain rfl := htarget
  rcases hhears.2 with ⟨-, rfl⟩ | ⟨hinput, -⟩
  · exact ⟨q, rfl, hq⟩
  · exact absurd hsilent hinput

theorem SearchOptions.permits_iff {o : SearchOptions} {e : Edge} :
    o.permits e = true ↔
      ∀ intent, Label.intent? e.output = some intent → o.accepts intent = true := by
  unfold permits
  split
  next intent h => simp [h]
  next h => simp [h]

/-- With no optional words an edge is taken exactly if it hears the tokens in
front of it. -/
theorem Edge.hears_iff {o : SearchOptions} {e : Edge} {rest matched left : List String} :
    (o.permits e = true ∧ e.hear? o (fun _ => false) rest = some (matched, left)) ↔
      e.Hears o matched ∧ rest = matched ++ left := by
  rw [Hears, SearchOptions.permits_iff, and_assoc]
  refine and_congr_right fun _ => ?_
  unfold hear?
  by_cases hinput : e.input = ""
  · have hsilent : e.isEpsilon = true := by rw [isEpsilon, hinput]; rfl
    rw [if_pos hsilent]
    refine ⟨fun h => ?_, fun h => ?_⟩
    · cases h
      exact ⟨.inl ⟨hinput, rfl⟩, rfl⟩
    · rcases h with ⟨⟨-, rfl⟩ | ⟨hne, -⟩, rfl⟩
      · rfl
      · exact absurd hinput hne
  · have hsilent : e.isEpsilon = false := by simpa [isEpsilon] using hinput
    rw [hsilent, if_neg Bool.false_ne_true]
    cases rest with
    | nil =>
        refine ⟨fun h => ?_, fun h => ?_⟩
        · cases h
        · rcases h with ⟨⟨hne, -⟩ | ⟨-, token, rfl, -⟩, h⟩
          · exact absurd hne hinput
          · cases h
    | cons token later =>
        simp only [SearchOptions.same, Bool.or_eq_true, beq_iff_eq, Bool.false_eq_true, if_false]
        refine ⟨fun h => ?_, fun h => ?_⟩
        · split at h
          next hsame =>
            cases h
            exact ⟨.inr ⟨hinput, token, rfl, hsame⟩, rfl⟩
          next => cases h
        · rcases h with ⟨⟨hne, -⟩ | ⟨-, token', rfl, hsame⟩, h⟩
          · exact absurd hne hinput
          · cases h
            rw [if_pos hsame]
            rfl

theorem Edge.Hears.silent_or {o : SearchOptions} {e : Edge} {matched : List String}
    (h : e.Hears o matched) : e.isEpsilon = true ∨ matched ≠ [] := by
  rcases h.2 with ⟨hinput, -⟩ | ⟨-, token, rfl, -⟩
  · exact .inl (by rw [isEpsilon, hinput]; rfl)
  · exact .inr (List.cons_ne_nil _ _)

namespace Graph

variable {g : Graph} {o : SearchOptions} {optional : String → Bool} {start : Nat}
  {tokens : List String}

/-! ## What is found on the levels -/

/-- The paths of the accepted visits on a level. -/
def foundOn (g : Graph) (level : List Visit) : List Path :=
  (level.filter (Visit.isAccepted g)).map Visit.path

theorem levels_add (level : List Visit) (j k : Nat) :
    g.levels o optional level (j + k) = g.levels o optional (g.levels o optional level j) k := by
  induction j generalizing level with
  | zero => rw [Nat.zero_add]; rfl
  | succ j ih =>
      rw [Nat.succ_add]
      exact ih _

theorem exactFrom_nil (bound : Nat) (limit : Option Nat) :
    g.exactFrom o optional bound limit [] = [] := by
  cases bound <;> rfl

theorem exactFrom_succ {bound : Nat} {limit : Option Nat} {level : List Visit} (hne : level ≠ []) :
    g.exactFrom o optional (bound + 1) limit level =
      match limit with
      | none =>
        g.foundOn level ++
          g.exactFrom o optional bound none (level.flatMap (g.advance o optional))
      | some n =>
        if n ≤ (g.foundOn level).length then (g.foundOn level).take n
        else
          g.foundOn level ++ g.exactFrom o optional bound (some (n - (g.foundOn level).length))
            (level.flatMap (g.advance o optional)) := by
  cases level with
  | nil => exact absurd rfl hne
  | cons v level => cases limit <;> rfl

/-- Without a limit everything on the levels up to the bound is found. -/
theorem exactFrom_eq (bound : Nat) (level : List Visit) :
    g.exactFrom o optional bound none level =
      (List.range bound).flatMap fun k => g.foundOn (g.levels o optional level k) := by
  induction bound generalizing level with
  | zero => rfl
  | succ bound ih =>
      by_cases hne : level = []
      · have hnone : ∀ k, g.foundOn (g.levels o optional [] k) = [] := fun k => by
          rw [levels_nil]
          rfl
        rw [hne, exactFrom_nil, List.flatMap_eq_nil_iff.mpr fun k _ => hnone k]
      · rw [exactFrom_succ hne, List.range_succ_eq_map, List.flatMap_cons, List.flatMap_map]
        exact congrArg _ (ih _)

/-- Levels after an empty one add nothing. -/
theorem exactFrom_of_le {K bound : Nat} {level : List Visit}
    (hnil : g.levels o optional level K = []) (hle : K ≤ bound) :
    g.exactFrom o optional bound none level = g.exactFrom o optional K none level := by
  have hlater : ∀ k, g.foundOn (g.levels o optional level (K + k)) = [] := fun k => by
    rw [levels_add, hnil, levels_nil]
    rfl
  obtain ⟨d, rfl⟩ := Nat.exists_eq_add_of_le hle
  rw [exactFrom_eq, exactFrom_eq, List.range_add, List.flatMap_append, List.flatMap_map,
    List.flatMap_eq_nil_iff.mpr fun k _ => hlater k, List.append_nil]

/-- A limit leaves the first paths of those found without it. -/
theorem exactFrom_some {bound n : Nat} (hn : 1 ≤ n) (level : List Visit) :
    g.exactFrom o optional bound (some n) level =
      (g.exactFrom o optional bound none level).take n := by
  induction bound generalizing n level with
  | zero => exact List.take_nil.symm
  | succ bound ih =>
      by_cases hne : level = []
      · rw [hne, exactFrom_nil, exactFrom_nil, List.take_nil]
      · rw [exactFrom_succ hne, exactFrom_succ hne]
        simp only
        split
        next hle => rw [List.take_append_of_le_length hle]
        next hlt =>
          rw [List.take_append, List.take_of_length_le (Nat.le_of_not_le hlt), ih (by omega)]

/-! ## The visits on a level -/

theorem length_back_of_mem_levels {n : Nat} : ∀ {k : Nat} {level : List Visit},
    (∀ v ∈ level, v.back.length = n) →
      ∀ v ∈ g.levels o optional level k, v.back.length = n + k
  | 0, _, hlevel, v, hv => hlevel v hv
  | k + 1, level, hlevel, v, hv => by
      rw [Nat.add_succ, ← Nat.succ_add]
      refine length_back_of_mem_levels (fun w hw => ?_) v hv
      obtain ⟨u, hu, hw⟩ := List.mem_flatMap.mp hw
      obtain ⟨e, -, matched, -, -, hback⟩ := mem_advance.mp hw
      rw [hback, List.length_cons, hlevel u hu]

theorem nodup_advance (hg : g.Valid) {level : List Visit} (hlevel : (level.map Visit.back).Nodup) :
    ((level.flatMap (g.advance o optional)).map Visit.back).Nodup := by
  refine nodup_trails (fun v => g.permitted o v.state)
    (fun v => hg.nodup_permitted o v.state) ?_ hlevel
  intro v e w hw
  obtain ⟨⟨matched, left⟩, -, rfl⟩ := Option.map_eq_some_iff.mp hw
  exact ⟨_, rfl, rfl⟩

/-- No two visits on a level have come along the same path. -/
theorem nodup_levels (hg : g.Valid) : ∀ {k : Nat} {level : List Visit},
    (level.map Visit.back).Nodup → ((g.levels o optional level k).map Visit.back).Nodup
  | 0, _, hlevel => hlevel
  | k + 1, _, hlevel => nodup_levels (k := k) hg (nodup_advance hg hlevel)

/-- The visits on the levels of a search have come along paths on which the tokens
in front are heard. -/
theorem hears_of_mem_levels (hg : g.Valid) {k : Nat} {v : Visit}
    (hv : v ∈ g.levels o (fun _ => false) [⟨start, tokens, []⟩] k) :
    v.path.length = k ∧ g.Visited (Edge.Hears o) start tokens v := by
  constructor
  · have hlength := length_back_of_mem_levels (n := 0) (fun w hw => by
      rw [List.mem_singleton.mp hw]; rfl) v hv
    rw [Visit.path, List.length_reverse, hlength, Nat.zero_add]
  · refine Visited.of_mem_levels hg (fun _ hpermits hhear =>
      (Edge.hears_iff.mp ⟨hpermits, hhear⟩).1) (fun w hw => ?_) v hv
    rw [List.mem_singleton.mp hw]
    exact ⟨.nil start, rfl⟩

/-- A path on which the tokens are heard leads to a visit on the level of its
length. -/
theorem mem_levels_of_hears (hg : g.Valid) {final : Nat} {p : Path}
    (hp : g.Follows (Edge.Hears o) start p final) :
    ⟨final, [], p.reverse⟩ ∈ g.levels o (fun _ => false) [⟨start, p.tokens, []⟩] p.length := by
  have hmem : ⟨final, [], p.reverse ++ []⟩ ∈
      g.levels o (fun _ => false) [⟨start, p.tokens, []⟩] p.length :=
    mem_levels_of_follows hg (fun _ hmatched => Edge.hears_iff.mpr ⟨hmatched, rfl⟩) hp
      (List.mem_singleton.mpr (by rw [List.append_nil]))
  rwa [List.append_nil] at hmem

/-- Where silent edges form no cycle, the levels run out. -/
theorem levels_eq_nil (hg : g.Valid) (hcycles : g.Acyclic fun e => e.isEpsilon) {k : Nat}
    (hk : g.size * (tokens.length + 1) < k) :
    g.levels o (fun _ => false) [⟨start, tokens, []⟩] k = [] := by
  refine List.eq_nil_iff_forall_not_mem.mpr fun v hv => ?_
  obtain ⟨hlength, hvisited⟩ := hears_of_mem_levels hg hv
  have hle := hvisited.follows.length_le hcycles Edge.Hears.silent_or
  have htokens : v.path.tokens.length ≤ tokens.length := by
    rw [hvisited.tokens_eq, List.length_append]
    exact Nat.le_add_right _ _
  have hmul : g.size * (v.path.tokens.length + 1) ≤ g.size * (tokens.length + 1) :=
    Nat.mul_le_mul_left _ (Nat.succ_le_succ htokens)
  omega

theorem lt_exactBound (g : Graph) (tokens : List String) (count : Nat) :
    g.size * (tokens.length + 1) + 1 ≤ g.exactBound tokens count :=
  Nat.succ_le_succ (Nat.le_mul_of_pos_right _ (Nat.succ_pos count))

/-- Where the levels run out in time, a limit leaves the first of the paths. -/
theorem exactPaths_limit (hstart : g.start = some start) (hne : tokens ≠ [])
    (hnil : g.levels o optional [⟨start, tokens, []⟩] (g.size * (tokens.length + 1) + 1) = [])
    {k : Nat} (hk : 1 ≤ k) :
    g.exactPaths o tokens optional (some k) = (g.exactPaths o tokens optional).take k := by
  rw [exactPaths_eq hstart hne, exactPaths_eq hstart hne, Option.map_some, Option.getD_some,
    exactFrom_some (Nat.le_max_left 1 k), Nat.max_eq_right hk,
    exactFrom_of_le hnil (lt_exactBound g tokens _)]
  exact congrArg (List.take k) (exactFrom_of_le hnil (lt_exactBound g tokens _)).symm

/-! ## The runs -/

section

variable (hg : g.Valid) (hcycles : g.Acyclic fun e => e.isEpsilon)
  (hstart : g.start = some start) (hne : tokens ≠ [])

include hg hcycles hstart hne

/-- What a search without a limit finds, level by level. -/
theorem exactPaths_eq_flatMap :
    g.exactPaths o tokens =
      (List.range (g.size * (tokens.length + 1) + 1)).flatMap fun k =>
        g.foundOn (g.levels o (fun _ => false) [⟨start, tokens, []⟩] k) := by
  rw [exactPaths_eq hstart hne, ← exactFrom_eq]
  exact exactFrom_of_le (levels_eq_nil hg hcycles (Nat.lt_succ_self _)) (lt_exactBound g tokens _)

theorem mem_exactPaths_iff_run {p : Path} : p ∈ g.exactPaths o tokens ↔ g.Run o tokens p := by
  rw [exactPaths_eq_flatMap hg hcycles hstart hne, List.mem_flatMap]
  constructor
  · rintro ⟨k, -, hp⟩
    obtain ⟨v, hv, rfl⟩ := List.mem_map.mp hp
    obtain ⟨hv, haccepted⟩ := List.mem_filter.mp hv
    obtain ⟨-, hvisited⟩ := hears_of_mem_levels hg hv
    obtain ⟨hfinal, hrest⟩ := (Bool.and_eq_true _ _).mp haccepted
    refine ⟨⟨start, v.state, hstart, eq_of_beq hfinal, hvisited.follows⟩, ?_⟩
    rw [hvisited.tokens_eq, List.isEmpty_iff.mp hrest, List.append_nil]
  · rintro ⟨⟨start', final, hstart', hfinal, hp⟩, rfl⟩
    obtain rfl : start = start' := Option.some.inj (hstart.symm.trans hstart')
    have hle := hp.length_le hcycles Edge.Hears.silent_or
    have haccepted : Visit.isAccepted g ⟨final, [], p.reverse⟩ = true := by
      simp [Visit.isAccepted, isFinal, hfinal]
    refine ⟨p.length, List.mem_range.mpr (Nat.lt_succ_of_le hle), ?_⟩
    refine List.mem_map.mpr ⟨⟨final, [], p.reverse⟩, ?_, p.reverse_reverse⟩
    exact List.mem_filter.mpr ⟨mem_levels_of_hears hg hp, haccepted⟩

/-- Of two levels the later has the longer paths, and on one level they differ. -/
theorem pairwise_exactPaths :
    (g.exactPaths o tokens).Nodup ∧
      (g.exactPaths o tokens).Pairwise fun p q => p.length ≤ q.length := by
  have hlength : ∀ {k p}, p ∈ g.foundOn (g.levels o (fun _ => false) [⟨start, tokens, []⟩] k) →
      p.length = k := by
    intro k p hp
    obtain ⟨v, hv, rfl⟩ := List.mem_map.mp hp
    exact (hears_of_mem_levels hg (List.mem_filter.mp hv).1).1
  rw [exactPaths_eq_flatMap hg hcycles hstart hne]
  constructor
  · rw [List.nodup_flatMap]
    refine ⟨fun k _ => ?_, ?_⟩
    · have hback : ((g.levels o (fun _ => false) [⟨start, tokens, []⟩] k).map Visit.back).Nodup :=
        nodup_levels hg (List.nodup_singleton _)
      have hpath : ((g.levels o (fun _ => false) [⟨start, tokens, []⟩] k).map Visit.path).Nodup := by
        rw [show Visit.path = List.reverse ∘ Visit.back from rfl, ← List.map_map]
        exact hback.map List.reverse_injective
      exact hpath.sublist (List.filter_sublist.map _)
    · refine List.pairwise_lt_range.imp fun {j k} hlt => ?_
      refine List.disjoint_left.mpr ?_
      intro p hj hk
      have := hlength hj
      have := hlength hk
      omega
  · rw [List.pairwise_flatMap]
    refine ⟨fun k _ => ?_, ?_⟩
    · refine List.pairwise_of_forall_mem_list fun p hp q hq => ?_
      rw [hlength hp, hlength hq]
    · refine List.pairwise_lt_range.imp fun {j k} hlt p hp q hq => ?_
      rw [hlength hp, hlength hq]
      exact Nat.le_of_lt hlt

/-- An exact search without optional words lists the runs, each once, the shorter
ones first.  It has come to its end before the bound on its levels is reached, and
with a limit it lists the first of the runs. -/
theorem exactPaths_lists_runs :
    (∀ p, p ∈ g.exactPaths o tokens ↔ g.Run o tokens p) ∧
      (g.exactPaths o tokens).Nodup ∧
      (g.exactPaths o tokens).Pairwise (fun p q => p.length ≤ q.length) ∧
      (∀ k, 1 ≤ k →
        g.exactPaths o tokens (fun _ => false) (some k) = (g.exactPaths o tokens).take k) ∧
      g.levels o (fun _ => false) [⟨start, tokens, []⟩] (g.exactBound tokens 0) = [] := by
  obtain ⟨hnodup, hlength⟩ := pairwise_exactPaths (o := o) hg hcycles hstart hne
  exact ⟨fun p => mem_exactPaths_iff_run hg hcycles hstart hne, hnodup, hlength,
    fun k hk =>
      exactPaths_limit hstart hne (levels_eq_nil hg hcycles (Nat.lt_succ_self _)) hk,
    levels_eq_nil hg hcycles (lt_exactBound g tokens 0)⟩

end

end Graph

/-- Any words, of which the last may be `now`. -/
def nowGraph : Graph :=
  ((((((({} : Graph).addState.addState.addState.addState.setStart 0).setFinal 3).addEdge
    0 1 "" "__label__Go").addEdge 1 1 "*" "*").addEdge 1 3 "*" "*").addEdge
    1 2 "now" "now").addEdge 2 3 "" ""

theorem valid_nowGraph : nowGraph.Valid := by
  have hstates : (({} : Graph).addState.addState.addState.addState).Valid :=
    (((Graph.valid_empty.addState none).addState none).addState none).addState none
  have hends : ((({} : Graph).addState.addState.addState.addState.setStart 0).setFinal 3).Valid :=
    hstates.congr (fun _ => rfl) rfl
  exact ((((hends.addEdge (by decide) 1 _ _).addEdge (by decide) 1 _ _).addEdge (by decide) 3 _
    _).addEdge (by decide) 2 _ _).addEdge (by decide) 3 _ _

theorem acyclic_nowGraph : nowGraph.Acyclic fun e => e.isEpsilon :=
  valid_nowGraph.acyclic (by decide)

/-- The last word is heard in two ways, and the way with fewer steps comes
first. -/
theorem exactPaths_nowGraph :
    nowGraph.exactPaths {} ["go", "now"] =
        [[⟨0, 1, []⟩, ⟨1, 1, ["go"]⟩, ⟨1, 3, ["now"]⟩],
          [⟨0, 1, []⟩, ⟨1, 1, ["go"]⟩, ⟨1, 2, ["now"]⟩, ⟨2, 3, []⟩]] ∧
      (∀ p, nowGraph.Run {} ["go", "now"] p ↔
        p = [⟨0, 1, []⟩, ⟨1, 1, ["go"]⟩, ⟨1, 3, ["now"]⟩] ∨
          p = [⟨0, 1, []⟩, ⟨1, 1, ["go"]⟩, ⟨1, 2, ["now"]⟩, ⟨2, 3, []⟩]) ∧
      nowGraph.exactPaths {} ["go", "now"] (fun _ => false) (some 1) =
        [[⟨0, 1, []⟩, ⟨1, 1, ["go"]⟩, ⟨1, 3, ["now"]⟩]] := by
  have hpaths : nowGraph.exactPaths {} ["go", "now"] =
      [[⟨0, 1, []⟩, ⟨1, 1, ["go"]⟩, ⟨1, 3, ["now"]⟩],
        [⟨0, 1, []⟩, ⟨1, 1, ["go"]⟩, ⟨1, 2, ["now"]⟩, ⟨2, 3, []⟩]] := by decide
  obtain ⟨hruns, -, -, hlimit, -⟩ := Graph.exactPaths_lists_runs (o := {}) (g := nowGraph)
    valid_nowGraph acyclic_nowGraph (show nowGraph.start = some 0 from rfl)
    (List.cons_ne_nil "go" ["now"])
  refine ⟨hpaths, fun p => ?_, ?_⟩
  · rw [← hruns p, hpaths, List.mem_cons, List.mem_singleton]
  · rw [hlimit 1 (Nat.le_refl 1), hpaths]
    rfl

end Utterance
