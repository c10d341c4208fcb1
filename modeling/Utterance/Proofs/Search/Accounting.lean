import Mathlib.Tactic.Ring
import Utterance.Proofs.Search.Ending
import Utterance.Proofs.Search.Insertion

/-!
# What the cost of a match is made of

On every edge a tolerant search skips some tokens, matches one and goes on behind it, or it
leaves the tokens alone (`Edge.Spends`).  So the tokens of a match are those skipped and
matched on its edges in turn, and those left after the last of them
(`Passes.exists_strides`).  A token counts a tenth if it is matched by a wildcard or skipped
as a stop word, nothing if it is matched by a word, and one otherwise
(`usualMatches_account`).
-/

namespace Utterance

/-- What is skipped costs a tenth for every token that is dropped and one for every other. -/
theorem skippedCost_eq (dropped : String → Bool) (skipped : List String) (cost : ℚ) :
    skippedCost dropped cost skipped =
      cost + (skipped.countP dropped / 10 + skipped.countP fun t => !dropped t) := by
  induction skipped generalizing cost with
  | nil => simp [skippedCost]
  | cons t skipped ih =>
      have hcons : skippedCost dropped cost (t :: skipped) =
          skippedCost dropped (cost + if dropped t then 1 / 10 else 1) skipped := by
        rw [skippedCost, skippedCost, List.foldl_cons]
        split <;> simp
      rw [hcons, ih, List.countP_cons, List.countP_cons]
      cases dropped t
      · simp only [Bool.false_eq_true, if_false, Bool.not_false, if_true, Nat.add_zero]
        push_cast
        ring
      · simp only [if_true, Bool.not_true, Bool.false_eq_true, if_false, Nat.add_zero]
        push_cast
        ring

/-! ## What an edge does -/

/-- An edge without a word leaves the tokens alone, a wildcard matches the next one, and any
other edge skips tokens that are not its word until one is. -/
inductive Edge.Spends (o : SearchOptions) (e : Edge) : List String → List String → Prop where
  | silent : e.input = "" → Edge.Spends o e [] []
  | wildcard (token : String) : e.input = wildcard → Edge.Spends o e [] [token]
  | word {skipped : List String} {token : String} : e.input ≠ "" → e.input ≠ wildcard →
      (∀ t ∈ skipped, o.same e.input t = false) → o.same e.input token = true →
      Edge.Spends o e skipped [token]

/-- The usual cost is that of the wildcard and of the tokens skipped. -/
theorem Edge.spends_of_usualCost {o : SearchOptions} {stopWords rest : List String} {e : Edge}
    {h : Hearing ℚ} (hh : usualCost o stopWords e.input rest = some h) :
    ∃ skipped, rest = skipped ++ h.matched ++ rest.drop h.consumed ∧ e.Spends o skipped h.matched ∧
      h.cost = ((if e.input = wildcard then h.matched.length else 0 : Nat) +
        skipped.countP fun t => stopWords.contains (o.transform t) : ℚ) / 10 +
          skipped.countP fun t => !stopWords.contains (o.transform t) := by
  by_cases hsilent : e.input = ""
  · have hwild : ¬ ("" : String) = Utterance.wildcard := by decide
    rw [hsilent] at hh ⊢
    cases hh
    exact ⟨[], rfl, .silent hsilent, by simp [hwild]⟩
  by_cases hwild : e.input = Utterance.wildcard
  · rw [hwild] at hh ⊢
    cases rest with
    | nil => cases hh
    | cons token later =>
        obtain rfl : (⟨Cost.tenth, 1, [token]⟩ : Hearing ℚ) = h := Option.some.inj hh
        exact ⟨[], rfl, .wildcard token hwild, by simp⟩
  · rw [usualCost_eq_scanTokens hsilent hwild, scanTokens_eq_some_iff] at hh
    obtain ⟨skipped, token, later, rfl, hskipped, hsame, rfl⟩ := hh
    refine ⟨skipped, ?_, .word hsilent hwild hskipped hsame, ?_⟩
    · simp [← List.drop_drop]
    · rw [skippedCost_eq, if_neg hwild]
      simp

/-- What is done on an edge: the tokens that are skipped, and the step. -/
structure Stride where
  skipped : List String
  step : PathStep

/-- The tokens that are gone after it. -/
def Stride.tokens (s : Stride) : List String := s.skipped ++ s.step.matched

namespace Graph

variable {g : Graph} {o : SearchOptions} {stopWords tokens : List String} {start : Nat}

/-- An edge that is permitted does so. -/
def Spends (g : Graph) (o : SearchOptions) (s : Stride) : Prop :=
  ∃ e, g.edge? s.step.source s.step.target = some e ∧ o.permits e = true ∧
    e.Spends o s.skipped s.step.matched

/-- The tokens that are matched by wildcards. -/
def matchedByWildcards (g : Graph) (p : Path) : List String :=
  Path.tokens (p.filter fun s => (g.edge? s.source s.target).any (·.input == wildcard))

theorem length_matchedByWildcards_concat (p : Path) {a b : Nat} {e : Edge}
    (he : g.edge? a b = some e) (matched : List String) :
    (g.matchedByWildcards (p ++ [⟨a, b, matched⟩])).length =
      (g.matchedByWildcards p).length + if e.input = wildcard then matched.length else 0 := by
  rw [matchedByWildcards, matchedByWildcards, List.filter_append, Path.tokens, Path.tokens,
    List.flatMap_append, List.length_append, Nat.add_left_cancel_iff, List.filter_cons, he,
    Option.any_some]
  by_cases hwild : e.input = wildcard
  · rw [if_pos (beq_iff_eq.mpr hwild), if_pos hwild]
    simp
  · rw [if_neg (mt beq_iff_eq.mp hwild), if_neg hwild]
    rfl

/-- The tokens are used up edge by edge, and the cost so far is that of these edges. -/
theorem Passes.exists_strides {p : Path} {a : Nat} {rest : List String} {cost : ℚ}
    (hp : g.Passes o stopWords start tokens p a rest cost) :
    ∃ strides : List Stride, strides.map Stride.step = p ∧ (∀ s ∈ strides, g.Spends o s) ∧
      tokens = strides.flatMap Stride.tokens ++ rest ∧
      cost = ((g.matchedByWildcards p).length + (strides.flatMap Stride.skipped).countP
          fun t => stopWords.contains (o.transform t) : ℚ) / 10 +
        (strides.flatMap Stride.skipped).countP fun t => !stopWords.contains (o.transform t) := by
  induction hp with
  | start => exact ⟨[], rfl, List.forall_mem_nil _, rfl, by simp [matchedByWildcards, Path.tokens]⟩
  | @step p a b rest cost e h _ he hpermits hh ih =>
      obtain ⟨strides, rfl, hspends, htokens, hcost⟩ := ih
      obtain ⟨skipped, hrest, hspend, hstep⟩ := Edge.spends_of_usualCost hh
      refine ⟨strides ++ [⟨skipped, ⟨a, b, h.matched⟩⟩], ?_, ?_, ?_, ?_⟩
      · rw [List.map_append, List.map_singleton]
      · exact List.forall_mem_append.mpr
          ⟨hspends, List.forall_mem_singleton.mpr ⟨e, he, hpermits, hspend⟩⟩
      · rw [List.flatMap_append, List.flatMap_singleton, List.append_assoc, Stride.tokens, ← hrest]
        exact htokens
      · rw [hcost, hstep, length_matchedByWildcards_concat _ he, List.flatMap_append,
          List.flatMap_singleton, List.countP_append, List.countP_append]
        push_cast
        ring

/-- Where the tokens of a match have gone: its path leads along permitted edges from the
start to the final state, the tokens are those that its strides use up and those that are left,
and its cost is a tenth for every token matched by a wildcard and every stop word skipped, and
one for every other token that is skipped or left. -/
structure Accounts (g : Graph) (o : SearchOptions) (stopWords tokens : List String)
    (m : TolerantMatch ℚ) (strides : List Stride) (left : List String) : Prop where
  crosses : g.Crosses (fun e _ => o.permits e = true) m.path
  path_eq : strides.map Stride.step = m.path
  spends : ∀ s ∈ strides, g.Spends o s
  tokens_eq : tokens = strides.flatMap Stride.tokens ++ left
  cost_eq : m.cost = 1 / 10 * ((g.matchedByWildcards m.path).length +
      (strides.flatMap Stride.skipped).countP fun t => stopWords.contains (o.transform t)) +
    1 * (((strides.flatMap Stride.skipped).countP fun t => !stopWords.contains (o.transform t)) +
      left.length)

theorem Arrives.exists_accounts {m : TolerantMatch ℚ} (hm : g.Arrives o stopWords tokens m) :
    ∃ strides left, g.Accounts o stopWords tokens m strides left := by
  obtain ⟨start, final, rest, cost, hstart, hfinal, hp, -, hcost, -⟩ := hm
  obtain ⟨strides, hpath, hspends, htokens, hspent⟩ := hp.exists_strides
  refine ⟨strides, rest, ⟨start, final, hstart, hfinal, hp.follows⟩, hpath, hspends, htokens, ?_⟩
  rw [hcost, hspent]
  ring

/-- The tokens that are matched stand in this order among all tokens. -/
theorem Accounts.tokens_sublist {m : TolerantMatch ℚ} {strides : List Stride} {left : List String}
    (h : g.Accounts o stopWords tokens m strides left) : m.path.tokens.Sublist tokens := by
  rw [h.tokens_eq, ← h.path_eq, Path.tokens, List.flatMap_map]
  refine List.Sublist.trans ?_ (List.sublist_append_left _ left)
  exact List.Sublist.flatMap_right _ fun s _ => List.sublist_append_right _ _

/-- Every match that is found is accounted for. -/
theorem exists_accounts_of_mem (hg : g.Valid) {q : String × List (TolerantMatch ℚ)}
    (hq : q ∈ g.usualMatches o stopWords tokens) {m : TolerantMatch ℚ} (hm : m ∈ q.2) :
    ∃ strides left, g.Accounts o stopWords tokens m strides left := by
  cases hstart : g.start with
  | none =>
      unfold usualMatches tolerantMatches at hq
      rw [hstart] at hq
      exact (List.not_mem_nil hq).elim
  | some start =>
      have hne : tokens ≠ [] := by
        rintro rfl
        unfold usualMatches tolerantMatches at hq
        rw [hstart] at hq
        exact (List.not_mem_nil hq).elim
      obtain ⟨hrecorded, -⟩ := (tabulates_usualMatches hstart hne).mem_kept hq hm
      exact (arrives_of_mem_recorded hg hstart hrecorded).exists_accounts

/-- In a graph without silent cycles a tolerant search ends.  For every match that it has found,
the tokens matched on its path stand in this order among all tokens, every token is matched,
skipped before a match or left, and the cost of the match is made of these. -/
theorem usualMatches_account (hg : g.Valid) (hcycles : g.Acyclic fun e => e.isEpsilon)
    (o : SearchOptions) (stopWords tokens : List String) :
    (∃ n s, (Loop.turn (TolerantSearch.visit g o (usualCost o stopWords)))^[n]
        (g.tolerantLoop tokens) = ⟨s, []⟩ ∧ s.found = g.usualMatches o stopWords tokens) ∧
      ∀ q ∈ g.usualMatches o stopWords tokens, ∀ m ∈ q.2, m.path.tokens.Sublist tokens ∧
        ∃ strides left, g.Accounts o stopWords tokens m strides left := by
  refine ⟨?_, fun q hq m hm => ?_⟩
  · cases hstart : g.start with
    | none =>
        refine ⟨0, ⟨[], (g.size : ℚ)⟩, ?_, ?_⟩
        · unfold tolerantLoop
          rw [hstart]
          rfl
        · unfold usualMatches tolerantMatches
          rw [hstart]
    | some start => exact tolerantLoop_ends hcycles hg hstart stopWords tokens
  · obtain ⟨strides, left, haccounts⟩ := exists_accounts_of_mem hg hq hm
    exact ⟨haccounts.tokens_sublist, strides, left, haccounts⟩

end Graph

/-- `turn`, any word, and `up`. -/
def turnCalls : List GraphCall :=
  [.addState none, .addState none, .addState none, .addState none, .addState none, .setStart 0,
    .setFinal 4, .addEdge 0 1 "" "__label__Turn", .addEdge 1 2 "turn" "turn",
    .addEdge 2 3 "*" "*", .addEdge 3 4 "up" "up"]

def turnGraph : Graph := turnCalls.foldl GraphCall.apply {}

theorem consistent_turnGraph : turnGraph.Consistent :=
  (Graph.History.empty.calls (by decide : GraphCall.AllFit {} turnCalls)).consistent

def turnTokens : List String := ["please", "turn", "it", "right", "the", "up", "now"]

/-- Of seven tokens a wildcard matches one, two stop words and another word are skipped, and one is
left. -/
theorem account_turnGraph :
    turnGraph.Valid ∧ (turnGraph.Acyclic fun e => e.isEpsilon) ∧
      turnGraph.usualMatches {} ["please", "the"] turnTokens =
        [("Turn", [⟨"Turn", [⟨0, 1, []⟩, ⟨1, 2, ["turn"]⟩, ⟨2, 3, ["it"]⟩, ⟨3, 4, ["up"]⟩],
          23 / 10⟩])] ∧
      ∀ q ∈ turnGraph.usualMatches {} ["please", "the"] turnTokens, ∀ m ∈ q.2,
        m.path.tokens.Sublist turnTokens ∧
          ∃ strides left, turnGraph.Accounts {} ["please", "the"] turnTokens m strides left := by
  have hcycles : turnGraph.Acyclic fun e => e.isEpsilon :=
    consistent_turnGraph.valid.acyclic (by decide)
  have hmatches : turnGraph.usualMatches {} ["please", "the"] turnTokens =
      [("Turn", [⟨"Turn", [⟨0, 1, []⟩, ⟨1, 2, ["turn"]⟩, ⟨2, 3, ["it"]⟩, ⟨3, 4, ["up"]⟩],
        23 / 10⟩])] := by decide +kernel
  exact ⟨consistent_turnGraph.valid, hcycles, hmatches,
    (Graph.usualMatches_account consistent_turnGraph.valid hcycles {} ["please", "the"]
      turnTokens).2⟩

end Utterance
