import Mathlib.Order.Bounds.Basic
import Utterance.Proofs.Search.Accounting
import Utterance.Proofs.Search.WholeCosts

/-!
# The longest embedded sentence

The words of a path *fit* into the first tokens of an input if they stand among them in
this order, and they end where they fit for the first time (`EndsAt`).  A tolerant search
looks for each word from where it has got to, so it always ends there
(`Passes.endsAt`), and it comes to the end of a path just if the words stand among the tokens
at all (`Follows.exists_passes`): to take a word as early as possible never leaves less
for the words after it.

Without stop words and wildcards what a path costs is the number of tokens skipped on it.  With
those that are left at the end these are all tokens that are not words of the path, so
the best matches are those with the most words (`best_leavesLeast`).
-/

namespace Utterance

/-- An edge whose word is somewhere in front can be taken. -/
theorem Edge.exists_usualCost {e : Edge} (hwild : e.input ≠ wildcard) {rest : List String}
    (hfront : ∀ w ∈ e.words, w ∈ rest) :
    ∃ h : Hearing ℚ, usualCost {} [] e.input rest = some h ∧ h.matched = e.words := by
  unfold Edge.words at hfront ⊢
  by_cases hsilent : e.input = ""
  · rw [if_pos hsilent, hsilent]
    exact ⟨_, rfl, rfl⟩
  · rw [if_neg hsilent] at hfront ⊢
    obtain ⟨skipped, later, rfl, hskipped⟩ :=
      List.eq_append_cons_of_mem (hfront _ (List.mem_singleton_self _))
    rw [usualCost_eq_scanTokens hsilent hwild]
    have hother : ∀ t ∈ skipped, SearchOptions.same {} e.input t = false := fun t ht =>
      beq_eq_false_iff_ne.mpr (ne_of_mem_of_not_mem ht hskipped).symm
    exact ⟨_, scanTokens_eq_some_iff.mpr
      ⟨skipped, e.input, later, rfl, hother, beq_self_eq_true _, rfl⟩, rfl⟩

/-! ## Where words end -/

/-- The words stand among the first `k` tokens in this order, and not among fewer. -/
structure EndsAt (words tokens : List String) (k : Nat) : Prop where
  sublist : words.Sublist (tokens.take k)
  le_of_sublist : ∀ {j}, words.Sublist (tokens.take j) → k ≤ j

namespace EndsAt

variable {words tokens skipped later : List String} {word : String} {j k : Nat}

theorem nil (tokens : List String) : EndsAt [] tokens 0 :=
  ⟨List.nil_sublist _, fun _ => Nat.zero_le _⟩

theorem unique (hj : EndsAt words tokens j) (hk : EndsAt words tokens k) : j = k :=
  Nat.le_antisymm (hj.le_of_sublist hk.sublist) (hk.le_of_sublist hj.sublist)

theorem length_le (h : EndsAt words tokens k) : words.length ≤ k :=
  h.sublist.length_le.trans (List.length_take_le k tokens)

theorem le_length (h : EndsAt words tokens k) : k ≤ tokens.length := by
  refine h.le_of_sublist (h.sublist.trans ?_)
  rw [List.take_length]
  exact List.take_sublist k tokens

theorem sublist_tokens (h : EndsAt words tokens k) : words.Sublist tokens :=
  h.sublist.trans (List.take_sublist k tokens)

/-- If one more word is there, it is behind the end. -/
theorem mem_drop_take (h : EndsAt words tokens k)
    (hmore : (words ++ [word]).Sublist (tokens.take j)) : word ∈ (tokens.take j).drop k := by
  obtain ⟨front, back, htake, hfront, hback⟩ := List.append_sublist_iff.mp hmore
  have hcut : front = tokens.take front.length := by
    refine List.prefix_iff_eq_take.mp (List.IsPrefix.trans ?_ (List.take_prefix j tokens))
    exact htake ▸ List.prefix_append front back
  have hle : k ≤ front.length := h.le_of_sublist (hcut ▸ hfront)
  rw [htake, List.drop_append_of_le_length hle]
  exact List.mem_append_right _ (List.singleton_sublist.mp hback)

/-- One more word ends at its first occurrence behind the end. -/
theorem concat (h : EndsAt words tokens k) (hrest : tokens.drop k = skipped ++ [word] ++ later)
    (hskipped : word ∉ skipped) :
    EndsAt (words ++ [word]) tokens (k + (skipped.length + 1)) ∧
      later = tokens.drop (k + (skipped.length + 1)) := by
  have hlength : (skipped ++ [word]).length = skipped.length + 1 := List.length_append
  refine ⟨⟨?_, fun {j} hmore => ?_⟩, ?_⟩
  · rw [List.take_add, hrest, List.take_left' hlength]
    exact h.sublist.append (List.sublist_append_right skipped [word])
  · have hmem := h.mem_drop_take hmore
    rw [List.drop_take, hrest, List.append_assoc] at hmem
    by_contra hlt
    have hfew : j - k ≤ skipped.length := by omega
    rw [List.take_append_of_le_length hfew] at hmem
    exact hskipped (List.mem_of_mem_take hmem)
  · rw [← List.drop_drop, hrest, List.drop_left' hlength]

end EndsAt

namespace Graph

variable {g : Graph} {tokens : List String} {start a b : Nat} {p q : Path}

/-! ## What a path comes to -/

theorem inputsOn_append (p q : Path) : g.inputsOn (p ++ q) = g.inputsOn p ++ g.inputsOn q :=
  List.flatMap_append

theorem inputsOn_concat {e : Edge} (he : g.edge? a b = some e) (matched : List String) :
    g.inputsOn (p ++ [⟨a, b, matched⟩]) = g.inputsOn p ++ e.words := by
  rw [inputsOn_append, inputsOn_cons he]
  exact congrArg _ (List.append_nil _)

section

variable (hwild : g.Inputs (· ≠ wildcard))

include hwild

/-- A tolerant search has got to where the words of the path end, and the cost is the number of
tokens skipped before. -/
theorem Passes.endsAt {rest : List String} {cost : ℚ}
    (hp : g.Passes {} [] start tokens p a rest cost) :
    ∃ k, EndsAt (g.inputsOn p) tokens k ∧ rest = tokens.drop k ∧
      cost + (g.inputsOn p).length = k := by
  induction hp with
  | start => exact ⟨0, .nil tokens, rfl, by simp [inputsOn]⟩
  | @step p a b rest cost e h _ he _ hh ih =>
      obtain ⟨k, hends, rfl, hcost⟩ := ih
      obtain ⟨skipped, hrest, hspends, hstep⟩ := Edge.spends_of_usualCost hh
      rw [if_neg (hwild.of_edge? he)] at hstep
      rw [inputsOn_concat he]
      rcases h with ⟨spent, consumed, matched⟩
      simp only at hrest hspends hstep ⊢
      cases hspends with
      | silent hsilent =>
          refine ⟨k, ?_, hrest.symm, ?_⟩
          · rw [Edge.words, if_pos hsilent, List.append_nil]
            exact hends
          · rw [hstep, ← hcost, Edge.words, if_pos hsilent]
            simp
      | wildcard token hinput => exact absurd hinput (hwild.of_edge? he)
      | @word _ token hne _ hskipped hsame =>
          obtain rfl : e.input = token := eq_of_beq hsame
          have hfirst : e.input ∉ skipped := fun hmem => by
            have := hskipped _ hmem
            simp [SearchOptions.same] at this
          obtain ⟨hmore, hlater⟩ := hends.concat hrest hfirst
          rw [Edge.words, if_neg hne]
          refine ⟨_, hmore, hlater, ?_⟩
          have hfew : skipped.countP (fun t => [].contains (id t)) = 0 := by simp
          have hmost : skipped.countP (fun t => !List.contains [] (id t)) = skipped.length := by
            simp
          rw [hstep, hfew, hmost, List.length_append, List.length_singleton]
          push_cast
          rw [← hcost]
          ring

/-- A path can be passed if its words stand among the tokens. -/
theorem Follows.exists_passes {R : Edge → List String → Prop} (hp : g.Follows R a p b)
    {rest : List String} {cost : ℚ} (hq : g.Passes {} [] start tokens q a rest cost)
    (hwords : (g.inputsOn q ++ g.inputsOn p).Sublist tokens) :
    ∃ rest cost, g.Passes {} [] start tokens (q ++ g.voiced p) b rest cost := by
  induction hp generalizing q rest cost with
  | nil a => exact ⟨rest, cost, by rwa [Graph.voiced, List.map_nil, List.append_nil]⟩
  | @cons a b c e matched p he _ _ ih =>
      rw [inputsOn_cons he, ← List.append_assoc] at hwords
      have hfront : ∀ w ∈ e.words, w ∈ rest := by
        obtain ⟨k, hends, rfl, -⟩ := hq.endsAt hwild
        unfold Edge.words at hwords ⊢
        split
        · exact List.forall_mem_nil _
        next hne =>
          rw [if_neg hne] at hwords
          have hmore := hends.mem_drop_take (j := tokens.length)
            (by rw [List.take_length]; exact (List.sublist_append_left _ _).trans hwords)
          rw [List.take_length] at hmore
          exact List.forall_mem_singleton.mpr hmore
      obtain ⟨h, hh, hmatched⟩ := Edge.exists_usualCost (hwild.of_edge? he) hfront
      have hstep := hq.step he (permits_default e) hh
      rw [hmatched] at hstep
      rw [voiced_cons he, List.append_cons]
      exact ih hstep (by rwa [inputsOn_concat he])

end

/-! ## The best match -/

/-- A path whose words stand among the tokens, and on which fewer tokens are skipped, up to where
its words end, than words are said. -/
def Embedded (g : Graph) (tokens : List String) (p : Path) : Prop :=
  g.Crosses (fun _ _ => True) p ∧ (g.inputsOn p).Sublist tokens ∧
    ∀ k, EndsAt (g.inputsOn p) tokens k → k - (g.inputsOn p).length < g.saidOn p

theorem saidOn_voiced (g : Graph) (p : Path) : g.saidOn (g.voiced p) = g.saidOn p := by
  rw [saidOn, saidOn, voiced, List.countP_map]
  rfl

theorem inputsOn_voiced (g : Graph) (p : Path) : g.inputsOn (g.voiced p) = g.inputsOn p := by
  rw [inputsOn, inputsOn, voiced, List.flatMap_map]

section

variable (hwild : g.Inputs (· ≠ wildcard))

include hwild

/-- What is passed to the end costs a token for each that is not a word of the path. -/
theorem Passes.cost_add_length {rest : List String} {cost : ℚ}
    (hp : g.Passes {} [] start tokens p a rest cost) :
    cost + rest.length = tokens.length - (g.inputsOn p).length := by
  obtain ⟨k, hends, rfl, hcost⟩ := hp.endsAt hwild
  rw [List.length_drop, Nat.cast_sub hends.le_length, ← hcost]
  ring

theorem Passes.lt_saidOn_iff {rest : List String} {cost : ℚ}
    (hp : g.Passes {} [] start tokens p a rest cost) {k : Nat}
    (hends : EndsAt (g.inputsOn p) tokens k) :
    cost < g.saidOn p ↔ k - (g.inputsOn p).length < g.saidOn p := by
  obtain ⟨j, hends', -, hcost⟩ := hp.endsAt hwild
  obtain rfl := hends'.unique hends
  have hskipped : cost = (j - (g.inputsOn p).length : Nat) := by
    rw [Nat.cast_sub hends.length_le, ← hcost]
    ring
  rw [hskipped, Nat.cast_lt]

/-- A match is the way along an embedded path. -/
theorem Arrives.embedded {m : TolerantMatch ℚ} (hm : g.Arrives {} [] tokens m) :
    g.Embedded tokens m.path ∧ m.cost = tokens.length - (g.inputsOn m.path).length := by
  obtain ⟨start, final, rest, cost, hstart, hfinal, hp, hcounts, hcost, -⟩ := hm
  obtain ⟨k, hends, -, -⟩ := hp.endsAt hwild
  have hfollows : g.Follows (fun _ _ => True) start m.path final :=
    hp.follows.imp fun _ _ => trivial
  refine ⟨⟨⟨start, final, hstart, hfinal, hfollows⟩, hends.sublist_tokens, fun j hj => ?_⟩, ?_⟩
  · exact (hp.lt_saidOn_iff hwild hj).mp hcounts
  · rw [hcost, hp.cost_add_length hwild]

theorem Embedded.exists_arrives (hp : g.Embedded tokens p) :
    ∃ m, g.Arrives {} [] tokens m ∧ m.cost = tokens.length - (g.inputsOn p).length := by
  obtain ⟨⟨start, final, hstart, hfinal, hfollows⟩, hwords, hsaid⟩ := hp
  obtain ⟨rest, cost, hpasses⟩ := hfollows.exists_passes hwild (q := []) .start hwords
  rw [List.nil_append] at hpasses
  obtain ⟨k, hends, -, -⟩ := hpasses.endsAt hwild
  refine ⟨⟨(g.intentsOn (g.voiced p)).getLast?.getD "", g.voiced p, cost + rest.length⟩,
    ⟨start, final, rest, cost, hstart, hfinal, hpasses, ?_, rfl, rfl⟩, ?_⟩
  · rw [hpasses.lt_saidOn_iff hwild hends, inputsOn_voiced, saidOn_voiced]
    rw [inputsOn_voiced] at hends
    exact hsaid k hends
  · rw [hpasses.cost_add_length hwild, inputsOn_voiced]

end

/-- Something has been found just if a path is embedded, and what has been found costs all tokens
but as many as there are words on an embedded path at most. -/
def LeavesLeast {κ : Type} [Cost κ] (g : Graph) (tokens : List String)
    (best : List (TolerantMatch κ)) : Prop :=
  (best ≠ [] ↔ ∃ p, g.Embedded tokens p) ∧
    ∀ m ∈ best, ∃ n : Nat, m.cost = Cost.ofNat (tokens.length - n) ∧
      IsGreatest {n | ∃ p, g.Embedded tokens p ∧ (g.inputsOn p).length = n} n

section

variable (hg : g.Valid) (hcycles : g.Acyclic fun _ => True) (hwild : g.Inputs (· ≠ wildcard))
  (hne : tokens ≠ [])

include hg hcycles hwild hne

theorem leavesLeast_usualMatches : g.LeavesLeast tokens (g.usualMatches {} [] tokens).best := by
  cases hstart : g.start with
  | none =>
      have hnil : g.usualMatches {} [] tokens = [] := by
        unfold usualMatches tolerantMatches
        rw [hstart]
      rw [hnil]
      refine ⟨iff_of_false (fun h => h rfl) ?_, fun m hm => (List.not_mem_nil hm).elim⟩
      rintro ⟨p, ⟨start, -, hstart', -⟩, -⟩
      rw [hstart] at hstart'
      cases hstart'
  | some start =>
      refine ⟨?_, fun m hm => ?_⟩
      · rw [Ne, best_eq_nil_iff hg hcycles hstart hne]
        constructor
        · intro hsome
          simp only [not_forall, not_not] at hsome
          obtain ⟨m, hm⟩ := hsome
          exact ⟨m.path, (hm.embedded hwild).1⟩
        · rintro ⟨p, hp⟩ hnone
          obtain ⟨m, hm, -⟩ := hp.exists_arrives hwild
          exact hnone m hm
      · obtain ⟨harrives, hleast⟩ := (mem_best_iff hg hcycles hstart hne).mp hm
        obtain ⟨hembedded, hcost⟩ := harrives.embedded hwild
        refine ⟨(g.inputsOn m.path).length, ?_, ⟨m.path, hembedded, rfl⟩, ?_⟩
        · rw [hcost, Cost.ofNat_rat, Nat.cast_sub hembedded.2.1.length_le]
        · rintro _ ⟨p, hp, rfl⟩
          obtain ⟨n, hn, hcost'⟩ := hp.exists_arrives hwild
          have hle := hleast n hn
          rw [hcost, hcost'] at hle
          exact_mod_cast (sub_le_sub_iff_left _).mp hle

/-- It is the same in all numbers that count as far as there are states and tokens. -/
theorem leavesLeast_of_countsTo {κ : Type} [Cost κ] {N : Nat} (hκ : Cost.CountsTo κ N)
    (hsize : g.size ≤ N) (hlength : tokens.length ≤ N) :
    g.LeavesLeast tokens
      (g.tolerantMatches {} (usualCost {} []) tokens : TolerantMatches κ).best := by
  obtain ⟨hsome, hcost⟩ := leavesLeast_usualMatches hg hcycles hwild hne
  have hexact : (g.usualMatches {} [] tokens).best = _ :=
    Graph.best_counted (Cost.countsTo_rat N) hg hcycles hwild hsize hlength
  rw [Graph.best_counted hκ hg hcycles hwild hsize hlength]
  rw [hexact] at hsome hcost
  refine ⟨?_, fun m hm => ?_⟩
  · rw [← hsome, Ne, Ne, List.map_eq_nil_iff, List.map_eq_nil_iff]
  · obtain ⟨k, hk, rfl⟩ := List.mem_map.mp hm
    obtain ⟨n, hn, hgreatest⟩ := hcost _ (List.mem_map_of_mem hk)
    exact ⟨n, congrArg Cost.ofNat (Nat.cast_injective hn), hgreatest⟩

/-- In a graph without cycles and wildcards, and without stop words, the best matches are those of
the longest embedded paths, in exact numbers and also in floating point, as long as states and
tokens can be counted there. -/
theorem best_leavesLeast :
    g.LeavesLeast tokens (g.usualMatches {} [] tokens).best ∧
      (g.size < 2 ^ 53 → tokens.length < 2 ^ 53 → g.LeavesLeast tokens
        (g.tolerantMatches {} (usualCost {} []) tokens : TolerantMatches Float).best) := by
  refine ⟨leavesLeast_usualMatches hg hcycles hwild hne, fun hsize hlength => ?_⟩
  exact leavesLeast_of_countsTo hg hcycles hwild hne
    (Cost.countsTo_float (max_lt hsize hlength)) (le_max_left _ _) (le_max_right _ _)

end

end Graph

/-- Two of four tokens are words of the longer sentence. -/
theorem best_leavesLeast_lightGraph :
    (lightGraph.usualMatches {} [] ["please", "dim", "light", "now"]).best =
        [⟨"Dim", [⟨0, 1, []⟩, ⟨1, 2, ["dim"]⟩, ⟨2, 4, ["light"]⟩], 2⟩] ∧
      lightGraph.LeavesLeast ["please", "dim", "light", "now"]
        (lightGraph.usualMatches {} [] ["please", "dim", "light", "now"]).best ∧
      lightGraph.LeavesLeast ["please", "dim", "light", "now"]
        (lightGraph.tolerantMatches {} (usualCost {} []) ["please", "dim", "light", "now"] :
          TolerantMatches Float).best := by
  have hcycles : lightGraph.Acyclic fun _ => True := valid_lightGraph.acyclic (by decide)
  have hwild : lightGraph.Inputs (· ≠ wildcard) := by
    unfold Graph.Inputs
    decide
  obtain ⟨hexact, hfloat⟩ := Graph.best_leavesLeast valid_lightGraph hcycles hwild
    (List.cons_ne_nil "please" ["dim", "light", "now"])
  exact ⟨by decide +kernel, hexact, hfloat (by decide +kernel) (by decide +kernel)⟩

end Utterance
