import Utterance.Proofs.Compile.Growth

/-!
# Building only appends

Where a graph is built on, what it held stays as it was: the states with their words, the
start and the final state, and the edges with their labels and their places, both among all
edges and at the states they leave.  The edges that come up behind them lead from the state
where building began, or from a new one, to new ones; the loops of wildcards apart
(`Graph.Appends`).

Adding an edge between states that are joined already changes that edge.  That this does no
harm rests on the targets: an edge that was there leads to a state that was there
(`Consistent.inside`), and the edges added do not, except a loop at the first state.  So that
state is asked to have no loop but a wildcard's, which stays what it is when it is added again.
-/

namespace Utterance

namespace Graph

/-- An edge that may come up when a graph is built on from its state `s`. -/
def NewEdge (g : Graph) (s : Nat) (e : Edge) : Prop :=
  (e.source = s ∨ g.size ≤ e.source) ∧
    (e.source < e.target ∧ g.size ≤ e.target ∨
      e.source = e.target ∧ e.labels = (wildcard, wildcard))

/-- The graph `h` is `g` with new states and new edges, which were added from the state `s` on. -/
structure Appends (g : Graph) (s : Nat) (h : Graph) : Prop where
  size_le : g.size ≤ h.size
  word : ∀ a < g.size, h.word? a = g.word? a
  start : h.start = g.start
  final : h.final = g.final
  edges : ∃ new, h.edges.toList = g.edges.toList ++ new ∧ ∀ e ∈ new, g.NewEdge s e
  out : ∀ a < g.size, g.outOf a <+: h.outOf a ∧ (a ≠ s → h.outOf a = g.outOf a)

variable {g h : Graph} {s a b : Nat}

/-! ## The places of the edges -/

/-- Edges behind all others stand behind the others at the states they leave, too. -/
theorem exists_leaving_append {new : List Edge}
    (hedges : h.edges.toList = g.edges.toList ++ new) (a : Nat) :
    ∃ more, h.leaving a = g.leaving a ++ more ∧ ((∀ e ∈ new, e.source ≠ a) → more = []) := by
  have hsize : h.edges.size = g.edges.size + new.length := by
    simpa using congrArg List.length hedges
  have hat : ∀ i, h.edges[i]? = (g.edges.toList ++ new)[i]? := fun i => by
    rw [← hedges, Array.getElem?_toList]
  have hold : (List.range g.edges.size).filter (fun i => (h.edges[i]?).any (·.source == a)) =
      g.leaving a := by
    refine List.filter_congr fun i hi => ?_
    rw [hat, List.getElem?_append_left (by simpa using hi), Array.getElem?_toList]
  rw [leaving, hsize, List.range_add, List.filter_append, hold]
  refine ⟨_, rfl, fun hnone => List.filter_eq_nil_iff.mpr fun j hj hany => ?_⟩
  obtain ⟨i, -, rfl⟩ := List.mem_map.mp hj
  rw [hat, List.getElem?_append_right (by simp), Array.length_toList,
    Nat.add_sub_cancel_left] at hany
  cases he : new[i]? with
  | none => simp [he] at hany
  | some e => exact hnone e (List.mem_of_getElem? he) (by simpa [he] using hany)

/-! ## Step by step -/

theorem NewEdge.congr {e f : Edge} (he : g.NewEdge s e) (hends : f.ends = e.ends)
    (hlabels : f.labels = e.labels) : g.NewEdge s f := by
  obtain ⟨hsource, htarget⟩ := Prod.mk.inj hends
  rw [NewEdge, hsource, htarget, hlabels]
  exact he

theorem relabelled_eq_self {e : Edge} {i o : String} (h : e.labels = (i, o)) :
    relabelled i o e = e := by
  cases h
  rfl

/-- A new edge, or one that is there and has the labels already. -/
theorem Consistent.exists_edges_addEdge (hh : h.Consistent) {old new : List Edge}
    (hedges : h.edges.toList = old ++ new) (hnew : ∀ e ∈ new, g.NewEdge s e) {i o : String}
    (hedge : g.NewEdge s ⟨a, b, i, o, none, none⟩)
    (hold : ∀ e ∈ old, e.ends = (a, b) → e.labels = (i, o)) :
    ∃ new, (h.addEdge a b i o).edges.toList = old ++ new ∧ ∀ e ∈ new, g.NewEdge s e := by
  rw [hh.edges_addEdge, hedges]
  split
  case isTrue =>
    have hkept : (old.map fun e => if e.ends = (a, b) then relabelled i o e else e) = old := by
      refine (List.map_congr_left fun e he => ?_).trans (List.map_id old)
      by_cases hends : e.ends = (a, b)
      · rw [if_pos hends, relabelled_eq_self (hold e he hends), id]
      · rw [if_neg hends, id]
    rw [List.map_append, hkept]
    refine ⟨_, rfl, fun f hf => ?_⟩
    obtain ⟨e, he, rfl⟩ := List.mem_map.mp hf
    by_cases hends : e.ends = (a, b)
    · rw [if_pos hends]
      exact hedge.congr hends rfl
    · rw [if_neg hends]
      exact hnew e he
  case isFalse =>
    refine ⟨_, List.append_assoc .., fun f hf => ?_⟩
    rcases List.mem_append.mp hf with hf | hf
    · exact hnew f hf
    · obtain rfl := List.mem_singleton.mp hf
      exact hedge

/-- What was there stands as it did, and behind it there are new edges only. -/
theorem Grows.exists_edges (G : g.Grows s h) (hg : g.Consistent)
    (hloop : ∀ e ∈ g.edges.toList, e.ends = (s, s) → e.labels = (wildcard, wildcard)) :
    ∃ new, h.edges.toList = g.edges.toList ++ new ∧ ∀ e ∈ new, g.NewEdge s e := by
  induction G with
  | refl => exact ⟨[], (List.append_nil _).symm, fun e he => (List.not_mem_nil he).elim⟩
  | addState word _ ih => exact ih
  | addEdge i o G hab hlt hb _ ih =>
      obtain ⟨new, hedges, hnew⟩ := ih
      refine (G.consistent hg).exists_edges_addEdge hedges hnew ⟨hab, .inl ⟨hlt, hb⟩⟩ ?_
      -- no edge that was there leads to a new state
      intro e he hends
      have htarget : e.target < g.size := (hg.inside e he).2
      exact absurd ((Prod.mk.inj hends).2 ▸ htarget) (Nat.not_lt.mpr hb)
  | addLoop G hab _ ih =>
      obtain ⟨new, hedges, hnew⟩ := ih
      refine (G.consistent hg).exists_edges_addEdge hedges hnew ⟨hab, .inr ⟨rfl, rfl⟩⟩ ?_
      intro e he hends
      rcases hab with rfl | ha
      · exact hloop e he hends
      · have htarget : e.target < g.size := (hg.inside e he).2
        exact absurd ((Prod.mk.inj hends).2 ▸ htarget) (Nat.not_lt.mpr ha)

theorem Grows.keeps_states (G : g.Grows s h) :
    (∀ a < g.size, h.word? a = g.word? a) ∧ h.start = g.start ∧ h.final = g.final := by
  induction G with
  | refl => exact ⟨fun _ _ => rfl, rfl, rfl⟩
  | addState word G ih =>
      obtain ⟨hword, hends⟩ := ih
      refine ⟨fun a ha => ?_, hends⟩
      rw [word?_addState_of_lt (Nat.lt_of_lt_of_le ha G.size_le), hword a ha]
  | addEdge i o _ _ _ _ _ ih => simpa using ih
  | addLoop _ _ _ ih => simpa using ih

theorem Grows.appends (G : g.Grows s h) (hg : g.Consistent)
    (hloop : ∀ e ∈ g.edges.toList, e.ends = (s, s) → e.labels = (wildcard, wildcard)) :
    g.Appends s h := by
  obtain ⟨new, hedges, hnew⟩ := G.exists_edges hg hloop
  obtain ⟨hword, hstart, hfinal⟩ := G.keeps_states
  refine ⟨G.size_le, hword, hstart, hfinal, ⟨new, hedges, hnew⟩, ?_⟩
  intro a ha
  obtain ⟨more, hmore, hnone⟩ := exists_leaving_append hedges a
  rw [(G.consistent hg).listed a (Nat.lt_of_lt_of_le ha G.size_le), hg.listed a ha, hmore]
  refine ⟨List.prefix_append .., fun has => ?_⟩
  rw [hnone, List.append_nil]
  rintro e he rfl
  exact (hnew e he).1.elim has (Nat.not_le.mpr ha)

end Graph

/-! ## What building makes of a graph -/

open Utterance.Graph

/-- From a state without a loop, or with the loop of a wildcard alone, building an expression
only appends to the graph, whether or not it ends in an error.  If it does not, the state where
the expression ends is the first one or a new one.  The graph may be any that calls have made
(`History.consistent`). -/
theorem Expr.build_appends {g : Graph} {s : Nat} (hg : g.Consistent) (hs : s < g.size)
    (hloop : ∀ e ∈ g.edges.toList, e.ends = (s, s) → e.labels = (wildcard, wildcard))
    (t : Table) (c : Scope) (expand hidden : Bool) (e : Expr) :
    g.Appends s (build expand hidden g s (unfold t c e)).graph ∧
      (build expand hidden g s (unfold t c e)).graph.Consistent ∧
      ∀ x, (build expand hidden g s (unfold t c e)).result = .ok x →
        (x = s ∨ g.size ≤ x) ∧ x < (build expand hidden g s (unfold t c e)).graph.size := by
  have G : (build expand hidden g s (unfold t c e)).Grown g s fun x => [x] :=
    build_grown expand (unfold t c e) hs
  refine ⟨G.grows.appends hg hloop, G.grows.consistent hg, fun x hx => ?_⟩
  cases hbuild : build expand hidden g s (unfold t c e) with
  | stopped h e =>
      rw [hbuild] at hx
      cases hx
  | done h y =>
      rw [hbuild] at G hx
      obtain rfl : y = x := Except.ok.inj hx
      exact GrowsTo.exit G

def dimmerCalls : List GraphCall :=
  [.addState none, .setStart 0, .addState (some "on"), .setFinal 1, .addEdge 0 1 "on" "on",
    .addEdge 0 0 wildcard wildcard]

/-- Two states, with a wildcard's loop at the start. -/
def dimmerGraph : Graph := dimmerCalls.foldl GraphCall.apply {}

theorem consistent_dimmerGraph : dimmerGraph.Consistent :=
  (History.empty.calls (by decide : GraphCall.AllFit {} dimmerCalls)).consistent

/-- `(*|off)`. -/
def dimmerExpr : Expr :=
  .seq .alternative "*|off" [.plain wildcard, .plain "off"] {} none

/-- `(* $level)`, with a slot that no table holds. -/
def levelExpr : Expr :=
  .seq .group "* $level" [.plain wildcard, .slot "$level" "level" {} none] {} none

def dimmerBuilt (e : Expr) : Built Nat :=
  build true false dimmerGraph 0 (unfold [] { intent := "Dim" } e)

/-- Both are built on the wildcard's loop that is there; the second one stops behind its first
word. -/
theorem appends_dimmerGraph :
    dimmerGraph.Appends 0 (dimmerBuilt dimmerExpr).graph ∧
      (dimmerBuilt dimmerExpr).result = .ok 4 ∧
      dimmerGraph.Appends 0 (dimmerBuilt levelExpr).graph ∧
      (dimmerBuilt levelExpr).result = .error (.unresolved "$level") := by
  have hloop : ∀ e ∈ dimmerGraph.edges.toList,
      e.ends = (0, 0) → e.labels = (wildcard, wildcard) := by decide
  have happends : ∀ e : Expr, dimmerGraph.Appends 0 (dimmerBuilt e).graph := fun e =>
    (Expr.build_appends consistent_dimmerGraph (by decide) hloop [] _ true false e).1
  refine ⟨happends dimmerExpr, ?_, happends levelExpr, ?_⟩
  · simp only [dimmerBuilt, dimmerExpr, unfold, unfoldAll, Expr.plain]
    rfl
  · simp only [dimmerBuilt, levelExpr, unfold, unfoldAll, Expr.plain]
    rfl

end Utterance
