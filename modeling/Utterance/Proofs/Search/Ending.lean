import Utterance.Proofs.Recognition.StopWords
import Utterance.Proofs.Search.Queue

/-!
# Searches without silent cycles

Where edges without a word form no cycle, the searches of a graph come to an end, also if
its other edges do.  A silent edge leads to a smaller height, and any other edge consumes a
token, for which the height may rise to the number of states again.  So the steps behind a
visit, the height of its state and the tokens in front of it, each counted as many times as
there are states, do not add up to more than they did at the start (`Graph.Spent`).
-/

namespace Utterance

theorem Edge.shorter_or_silent_of_hear? {o : SearchOptions} {e : Edge}
    {rest matched left : List String}
    (h : e.hear? o (fun _ => false) rest = some (matched, left)) :
    left.length < rest.length ∨ (e.isEpsilon = true ∧ left = rest) := by
  unfold Edge.hear? at h
  split at h
  next hsilent =>
    cases h
    exact .inr ⟨hsilent, rfl⟩
  next =>
    cases rest with
    | nil => cases h
    | cons token later =>
        simp only [Bool.false_eq_true, if_false] at h
        split at h
        · cases h
          exact .inl (Nat.lt_succ_self _)
        · cases h

theorem shorter_or_silent_of_usualCost {κ : Type} [Cost κ] {o : SearchOptions}
    {stopWords rest : List String} {e : Edge} {h : Hearing κ}
    (hh : usualCost o stopWords e.input rest = some h) :
    (rest.drop h.consumed).length < rest.length ∨
      (e.isEpsilon = true ∧ rest.drop h.consumed = rest) := by
  by_cases hsilent : e.input = ""
  · rw [hsilent] at hh
    cases hh
    exact .inr ⟨by rw [Edge.isEpsilon, hsilent]; rfl, rfl⟩
  · refine .inl ?_
    by_cases hwild : e.input = wildcard
    · rw [hwild] at hh
      exact length_lt_of_usualCost hh
    · rw [usualCost_eq_scanTokens hsilent hwild, scanTokens_eq_some_iff] at hh
      obtain ⟨skipped, token, later, rfl, -, -, rfl⟩ := hh
      simp only [List.length_drop, List.length_append, List.length_cons]
      omega

namespace Graph

variable {g : Graph} {o : SearchOptions} {tokens : List String}

/-- What has been done and what can still be done without a token is paid for by the tokens
that are gone. -/
def Spent (g : Graph) (tokens : List String) (s : Nat) (rest : List String) (back : Path) : Prop :=
  back.length + g.height (fun e => e.isEpsilon) s + g.size * rest.length ≤
    g.size * (tokens.length + 1)

theorem Spent.length_back_le {s : Nat} {rest : List String} {back : Path}
    (hv : g.Spent tokens s rest back) : back.length ≤ g.size * (tokens.length + 1) := by
  unfold Spent at hv
  omega

section

variable (hcycles : g.Acyclic fun e => e.isEpsilon)

include hcycles

theorem spent_start (start : Nat) (tokens : List String) : g.Spent tokens start tokens [] := by
  have htop := hcycles.height_le start
  rw [Spent, List.length_nil, Nat.zero_add, Nat.mul_succ, Nat.add_comm]
  exact Nat.add_le_add_left htop _

theorem Spent.step {a b : Nat} {e : Edge} {rest left : List String} {back : Path}
    (hv : g.Spent tokens a rest back) (he : g.edge? a b = some e)
    (hleft : left.length < rest.length ∨ (e.isEpsilon = true ∧ left = rest)) (step : PathStep) :
    g.Spent tokens b left (step :: back) := by
  unfold Spent at hv ⊢
  rw [List.length_cons]
  rcases hleft with hlt | ⟨hsilent, rfl⟩
  · have hpos : 0 < g.height (fun e => e.isEpsilon) a := height_pos he
    have htop := hcycles.height_le b
    have hmore : g.size * (left.length + 1) ≤ g.size * rest.length := Nat.mul_le_mul_left _ hlt
    rw [Nat.mul_succ] at hmore
    omega
  · have hlt := hcycles.height_lt he hsilent
    omega

variable (hg : g.Valid) {start : Nat} (hstart : g.start = some start)

include hg hstart

/-- An exact search without optional words ends with what it is defined to find. -/
theorem exactLoop_ends (limit : Option Nat) (tokens : List String) :
    ∃ n, (Loop.turn (g.exactVisit o (fun _ => false) limit))^[n] (g.exactLoop tokens) =
      ⟨g.exactPaths o tokens (fun _ => false) limit, []⟩ :=
  (turns_exactVisit hg hstart (spent_start hcycles start tokens) Spent.length_back_le
    (Nat.le_refl _) (fun hv he hhear => hv.step hcycles he (Edge.shorter_or_silent_of_hear? hhear) _) limit).2

/-- A tolerant search with the usual costs ends with what it is defined to find. -/
theorem tolerantLoop_ends {κ : Type} [Cost κ] (stopWords tokens : List String) :
    ∃ n s, (Loop.turn (TolerantSearch.visit g o (usualCost o stopWords)))^[n]
        (g.tolerantLoop tokens : Loop (TolerantSearch κ) (TolerantVisit κ)) = ⟨s, []⟩ ∧
      s.found = g.tolerantMatches o (usualCost o stopWords) tokens :=
  (turns_tolerantVisit hg hstart (spent_start hcycles start tokens) Spent.length_back_le
    (Nat.le_refl _)
    fun hv he hh => hv.step hcycles he (shorter_or_silent_of_usualCost hh) _).2

end

end Graph

end Utterance
