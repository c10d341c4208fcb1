import Utterance.Proofs.Search.Exact
import Utterance.Search.Simple
import Utterance.Search.Tolerant

/-!
# Paths that are found

Every search gives paths that lead from the start to the final state, and no edge
matches more than one token on them (`Found.crosses`).  For the tolerant search
this is an invariant of its levels: the visits of a level have come along paths
from the start (`Visited`), and the matches so far have come to the final state
(`Sound`).  What things cost plays no part.
-/

namespace Utterance

/-- The path leads from the start to the final state. -/
def Graph.Crosses (g : Graph) (R : Edge → List String → Prop) (p : Path) : Prop :=
  ∃ start final, g.start = some start ∧ g.final = some final ∧ g.Follows R start p final

/-! ## The tolerant search -/

section

variable {κ : Type} [Cost κ]

theorem takes_of_scanTokens {o : SearchOptions} {stopWords : List String} {word : String} :
    ∀ {tokens : List String} {cost : κ} {skipped : Nat} {h : Hearing κ},
      scanTokens o stopWords word cost skipped tokens = some h → ∃ token, h.matched = [token]
  | [], _, _, _, h => by cases h
  | token :: rest, cost, skipped, hearing, h => by
      rw [scanTokens] at h
      split at h
      · cases h
        exact ⟨token, rfl⟩
      · exact takes_of_scanTokens h

/-- Whatever it costs, an edge matches at most one token. -/
theorem takes_of_usualCost {o : SearchOptions} {stopWords : List String} {e : Edge}
    {tokens : List String} {h : Hearing κ} (hh : usualCost o stopWords e.input tokens = some h) :
    e.Takes h.matched := by
  unfold usualCost at hh
  split at hh
  next =>
    cases hh
    exact .inl rfl
  next hinput =>
    have hne : e.input ≠ "" := fun heq => hinput (by rw [heq]; rfl)
    cases tokens with
    | nil => cases hh
    | cons token rest =>
        simp only at hh
        split at hh
        · cases hh
          exact .inr ⟨hne, token, rfl⟩
        · exact .inr ⟨hne, takes_of_scanTokens hh⟩

theorem mem_keepCheapest {m n : TolerantMatch κ} {kept : List (TolerantMatch κ)}
    (h : n ∈ keepCheapest m kept) : n = m ∨ n ∈ kept := by
  cases kept with
  | nil => exact .inl (List.mem_singleton.mp h)
  | cons first rest =>
      rw [keepCheapest] at h
      split at h
      · exact .inr h
      · split at h
        · exact (List.mem_append.mp h).symm.imp_left List.mem_singleton.mp
        · exact .inl (List.mem_singleton.mp h)

/-- Adding a match adds no other. -/
theorem TolerantMatches.mem_add {m n : TolerantMatch κ} {q : String × List (TolerantMatch κ)} :
    ∀ {ms : TolerantMatches κ}, q ∈ ms.add m → n ∈ q.2 → n = m ∨ ∃ q ∈ ms, n ∈ q.2
  | [], hq, hn => by
      obtain rfl := List.mem_singleton.mp hq
      exact .inl (List.mem_singleton.mp hn)
  | (intent, kept) :: rest, hq, hn => by
      unfold add at hq
      split at hq
      · rcases List.mem_cons.mp hq with rfl | hq
        · exact .inl (List.mem_singleton.mp hn)
        · exact .inr ⟨q, hq, hn⟩
      · split at hq
        · rcases List.mem_cons.mp hq with rfl | hq
          · exact (mem_keepCheapest hn).imp_right fun hn => ⟨_, List.mem_cons_self, hn⟩
          · exact .inr ⟨q, List.mem_cons_of_mem _ hq, hn⟩
        · rcases List.mem_cons.mp hq with rfl | hq
          · exact .inr ⟨_, List.mem_cons_self, hn⟩
          · exact (mem_add hq hn).imp_right fun ⟨q, hq, hn⟩ =>
              ⟨q, List.mem_cons_of_mem _ hq, hn⟩

end

namespace TolerantSearch

variable {κ : Type} {g : Graph} {start : Nat}

/-- The visit has come along a path from the start. -/
def Visited (g : Graph) (start : Nat) (v : TolerantVisit κ) : Prop :=
  g.Follows Edge.Takes start v.back.reverse v.state

/-- Everything found leads from the start to the final state. -/
def Sound (g : Graph) (start : Nat) (s : TolerantSearch κ) : Prop :=
  ∀ q ∈ s.found, ∀ m ∈ q.2, ∃ final, g.final = some final ∧
    g.Follows Edge.Takes start m.path final

variable [Cost κ] {o : SearchOptions} {stopWords : List String}

theorem Sound.record {s : TolerantSearch κ} {v : TolerantVisit κ} (hs : s.Sound g start)
    (hv : Visited g start v) : (s.record g v).Sound g start := by
  unfold TolerantSearch.record
  split
  next h =>
    intro q hq m hm
    rcases TolerantMatches.mem_add hq hm with rfl | ⟨q, hq, hm⟩
    · exact ⟨v.state, eq_of_beq ((Bool.and_eq_true _ _).mp h).1, hv⟩
    · exact hs q hq m hm
  next => exact hs

theorem Visited.advance (hg : g.Valid) {v w : TolerantVisit κ} (hv : Visited g start v)
    (hw : w ∈ TolerantSearch.advance g o (usualCost o stopWords) v) : Visited g start w := by
  obtain ⟨e, he, hcross⟩ := List.mem_filterMap.mp hw
  obtain ⟨h, hh, rfl⟩ := Option.map_eq_some_iff.mp hcross
  have hedge := hg.mem_edgesFrom.mp (List.mem_filter.mp he).1
  rw [Visited, List.reverse_cons]
  exact Graph.Follows.trans hv (.single hedge (takes_of_usualCost hh))

variable (o stopWords) in
/-- A level leaves the search sound and is followed by visits along paths. -/
theorem Sound.sweep (hg : g.Valid) : ∀ {level : List (TolerantVisit κ)} {s : TolerantSearch κ},
    s.Sound g start → (∀ v ∈ level, Visited g start v) →
      (sweep g o (usualCost o stopWords) s level).1.Sound g start ∧
      ∀ v ∈ (sweep g o (usualCost o stopWords) s level).2, Visited g start v
  | [], _, hs, _ => ⟨hs, fun _ hv => (List.not_mem_nil hv).elim⟩
  | v :: level, s, hs, hlevel => by
      have hv := hlevel v List.mem_cons_self
      obtain ⟨hsound, hlater⟩ := Sound.sweep hg (hs.record hv) fun w hw =>
        hlevel w (List.mem_cons_of_mem _ hw)
      refine ⟨hsound, fun w hw => ?_⟩
      rcases List.mem_append.mp hw with hw | hw
      · split at hw
        · exact (List.not_mem_nil hw).elim
        · exact hv.advance hg hw
      · exact hlater w hw

theorem Sound.run (hg : g.Valid) : ∀ {bound : Nat} {s : TolerantSearch κ}
    {level : List (TolerantVisit κ)}, s.Sound g start → (∀ v ∈ level, Visited g start v) →
      (run g o (usualCost o stopWords) bound s level).Sound g start
  | 0, _, _, hs, _ => hs
  | _ + 1, _, [], hs, _ => hs
  | bound + 1, s, v :: level, hs, hlevel => by
      obtain ⟨hsound, hlater⟩ := hs.sweep o stopWords hg hlevel
      rw [TolerantSearch.run]
      · exact Sound.run hg hsound hlater
      · exact nofun

end TolerantSearch

namespace Graph

variable {g : Graph} {p : Path}

section

variable {κ : Type} [Cost κ] {o : SearchOptions} {rule : CostRule κ} {tokens : List String}

theorem tolerantMatches_eq {start : Nat} (hstart : g.start = some start) (hne : tokens ≠ []) :
    g.tolerantMatches o rule tokens =
      (TolerantSearch.run g o rule (g.tolerantBound tokens) ⟨[], Cost.ofNat g.size⟩
        [⟨start, tokens, [], 0, Cost.ofNat 0, none⟩]).found := by
  cases tokens with
  | nil => exact absurd rfl hne
  | cons token rest =>
      unfold tolerantMatches
      rw [hstart]

/-- Nothing is searched for without a start or without an input. -/
theorem tolerantMatches_eq_nil (h : g.start = none ∨ tokens = []) :
    g.tolerantMatches o rule tokens = [] := by
  unfold tolerantMatches
  rcases h with hstart | rfl
  · rw [hstart]
  · cases g.start <;> rfl

/-- A path of a tolerant match leads from the start to the final state. -/
theorem crosses_of_mem_tolerantMatches {stopWords : List String} (hg : g.Valid)
    {q : String × List (TolerantMatch κ)}
    (hq : q ∈ g.tolerantMatches o (usualCost o stopWords) tokens) {m : TolerantMatch κ}
    (hm : m ∈ q.2) : g.Crosses Edge.Takes m.path := by
  cases hstart : g.start with
  | none =>
      rw [tolerantMatches_eq_nil (.inl hstart)] at hq
      exact (List.not_mem_nil hq).elim
  | some start =>
      by_cases hne : tokens = []
      · rw [tolerantMatches_eq_nil (.inr hne)] at hq
        exact (List.not_mem_nil hq).elim
      · rw [tolerantMatches_eq hstart hne] at hq
        have hfirst : ∀ v ∈ [(⟨start, tokens, [], 0, Cost.ofNat 0, none⟩ : TolerantVisit κ)],
            TolerantSearch.Visited g start v := by
          intro v hv
          obtain rfl := List.mem_singleton.mp hv
          exact .nil start
        have hempty : TolerantSearch.Sound g start ⟨[], (Cost.ofNat g.size : κ)⟩ :=
          fun _ h => (List.not_mem_nil h).elim
        obtain ⟨final, hfinal, hp⟩ := hempty.run hg hfirst q hq m hm
        exact ⟨start, final, hstart, hfinal, hp⟩

end

/-! ## Simple paths -/

end Graph

theorem mem_collect {α β : Type} {f : Option Nat → α → List β} {b : β} :
    ∀ {room : Option Nat} {l : List α}, b ∈ collect f room l → ∃ room, ∃ a ∈ l, b ∈ f room a
  | _, [], h => by
      unfold collect at h
      exact (List.not_mem_nil h).elim
  | none, a :: l, h => by
      rw [collect] at h
      rcases List.mem_append.mp h with h | h
      · exact ⟨none, a, List.mem_cons_self, h⟩
      · obtain ⟨room, a', ha', h⟩ := mem_collect h
        exact ⟨room, a', List.mem_cons_of_mem _ ha', h⟩
  | some 0, a :: l, h => by
      rw [collect] at h
      · exact (List.not_mem_nil h).elim
      · exact nofun
  | some (n + 1), a :: l, h => by
      rw [collect] at h
      · rcases List.mem_append.mp h with h | h
        · exact ⟨_, a, List.mem_cons_self, h⟩
        · obtain ⟨room, a', ha', h⟩ := mem_collect h
          exact ⟨room, a', List.mem_cons_of_mem _ ha', h⟩
      · exact nofun

namespace Graph

variable {g : Graph} {p : Path}

/-- A simple way follows the graph and matches nothing. -/
theorem follows_of_mem_simpleFrom {R : Edge → List String → Prop} (hR : ∀ e, R e []) (hg : g.Valid)
    {final : Nat} : ∀ {bound : Nat} {passed : List Nat} {s : Nat} {room : Option Nat} {p : Path},
    p ∈ g.simpleFrom final bound passed s room → g.Follows R s p final
  | 0, _, _, _, _, hp => (List.not_mem_nil hp).elim
  | bound + 1, passed, s, room, p, hp => by
      rw [simpleFrom] at hp
      obtain ⟨room, e, he, hp⟩ := mem_collect hp
      have hedge := hg.mem_edgesFrom.mp he
      split at hp
      · exact (List.not_mem_nil hp).elim
      · split at hp
        next hfinal =>
          rw [List.mem_singleton.mp hp, ← eq_of_beq hfinal]
          exact .single hedge (hR e)
        next =>
          obtain ⟨q, hq, rfl⟩ := List.mem_map.mp hp
          exact .cons hedge (hR e) (follows_of_mem_simpleFrom hR hg hq)

theorem crosses_of_mem_simplePaths {R : Edge → List String → Prop} (hR : ∀ e, R e [])
    (hg : g.Valid) {limit : Option Nat} (hp : p ∈ g.simplePaths limit) : g.Crosses R p := by
  unfold simplePaths at hp
  split at hp
  next start final hstart hfinal =>
    exact ⟨start, final, hstart, hfinal, follows_of_mem_simpleFrom hR hg hp⟩
  next => exact (List.not_mem_nil hp).elim

/-! ## All searches -/

/-- Some search finds the path. -/
inductive Found (g : Graph) : Path → Prop where
  | exact {o : SearchOptions} {tokens : List String} {optional : String → Bool}
      {limit : Option Nat} {p : Path} :
      p ∈ g.exactPaths o tokens optional limit → Found g p
  | tolerant {κ : Type} [Cost κ] {o : SearchOptions} {stopWords tokens : List String}
      {q : String × List (TolerantMatch κ)} {m : TolerantMatch κ} :
      q ∈ g.tolerantMatches o (usualCost o stopWords) tokens → m ∈ q.2 → Found g m.path
  | simple {limit : Option Nat} {p : Path} : p ∈ g.simplePaths limit → Found g p

theorem Found.crosses (hg : g.Valid) (hp : g.Found p) : g.Crosses Edge.Takes p := by
  cases hp with
  | exact hp =>
      obtain ⟨start, final, hstart, hfinal, hfollows, -⟩ :=
        follows_of_mem_exactPaths hg (fun _ hhear => (Edge.takes_of_hear? hhear).1) hp
      exact ⟨start, final, hstart, hfinal, hfollows⟩
  | tolerant hq hm => exact crosses_of_mem_tolerantMatches hg hq hm
  | simple hp => exact crosses_of_mem_simplePaths (fun _ => .inl rfl) hg hp

end Graph

end Utterance
