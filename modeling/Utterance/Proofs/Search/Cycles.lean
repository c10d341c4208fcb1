import Mathlib.Algebra.GroupWithZero.Nat
import Mathlib.Data.Finset.Card
import Mathlib.Data.Finset.Range
import Mathlib.Logic.Relation
import Utterance.Proofs.Search.Follows

/-!
# Graphs without cycles

Where edges of some kind form no cycle, every state has a *height*, the number
of states that such edges lead to from it, itself included.  An edge of the kind
leads to a smaller height, and no height is larger than the graph.  So a path has
no more edges of the kind in a row than there are states, and its length is
bounded by what it does on the other edges (`Follows.length_add_height_le`).

Two kinds matter to a search: the silent edges, on which no token is matched, and
all edges.
-/

namespace Utterance

namespace Graph

/-- An edge of the kind `P` leads from one state to the other. -/
def Joins (g : Graph) (P : Edge → Prop) (a b : Nat) : Prop := ∃ e, g.edge? a b = some e ∧ P e

/-- Edges of the kind `P` form no cycle. -/
def Acyclic (g : Graph) (P : Edge → Prop) : Prop := ∀ s, ¬ Relation.TransGen (g.Joins P) s s

open scoped Classical in
/-- The states that edges of the kind `P` lead to, one or more in a row. -/
noncomputable def below (g : Graph) (P : Edge → Prop) (s : Nat) : Finset Nat :=
  (Finset.range g.size).filter fun t => Relation.TransGen (g.Joins P) s t

/-- How many states edges of the kind `P` lead to, with the state itself. -/
noncomputable def height (g : Graph) (P : Edge → Prop) (s : Nat) : Nat :=
  if s < g.size then (g.below P s).card + 1 else 0

variable {g : Graph} {P : Edge → Prop} {a b s t : Nat}

theorem mem_below : t ∈ g.below P s ↔ t < g.size ∧ Relation.TransGen (g.Joins P) s t := by
  simp only [below, Finset.mem_filter, Finset.mem_range]

theorem Acyclic.height_le (h : g.Acyclic P) (s : Nat) : g.height P s ≤ g.size := by
  unfold height
  split
  next hs =>
    have hsub : g.below P s ⊂ Finset.range g.size := by
      refine ⟨fun t ht => Finset.mem_range.mpr (mem_below.mp ht).1, fun hle => ?_⟩
      exact h s (mem_below.mp (hle (Finset.mem_range.mpr hs))).2
    have hcard := Finset.card_lt_card hsub
    rwa [Finset.card_range] at hcard
  next => exact Nat.zero_le _

/-- Edges leave the states of the graph only. -/
theorem lt_size_of_edge? {e : Edge} (he : g.edge? a b = some e) : a < g.size := by
  by_contra hle
  rw [edge?_of_size_le (Nat.le_of_not_lt hle)] at he
  cases he

theorem height_pos {e : Edge} (he : g.edge? a b = some e) : 0 < g.height P a := by
  rw [height, if_pos (lt_size_of_edge? he)]
  exact Nat.succ_pos _

/-- An edge of the kind leads down. -/
theorem Acyclic.height_lt (h : g.Acyclic P) {e : Edge} (he : g.edge? a b = some e) (hP : P e) :
    g.height P b < g.height P a := by
  by_cases hb : b < g.size
  · have hjoins : g.Joins P a b := ⟨e, he, hP⟩
    have hsub : g.below P b ⊂ g.below P a := by
      refine ⟨fun t ht => ?_, fun hle => ?_⟩
      · obtain ⟨hlt, htrans⟩ := mem_below.mp ht
        exact mem_below.mpr ⟨hlt, .head hjoins htrans⟩
      · exact h b (mem_below.mp (hle (mem_below.mpr ⟨hb, .single hjoins⟩))).2
    rw [height, height, if_pos hb, if_pos (lt_size_of_edge? he)]
    exact Nat.succ_lt_succ (Finset.card_lt_card hsub)
  · rw [height, if_neg hb]
    exact height_pos he

/-- Along a path every edge of the kind leads down, and after any other one the
height is at most the size of the graph. -/
theorem Follows.length_add_height_le (h : g.Acyclic P) {R : Edge → List String → Prop}
    (weight : List String → Nat)
    (hR : ∀ {e matched}, R e matched → P e ∨ 0 < weight matched) {p : Path}
    (hp : g.Follows R a p b) :
    p.length + g.height P b
      ≤ g.height P a + g.size * (p.map fun s => weight s.matched).sum := by
  induction hp with
  | nil a =>
      rw [List.length_nil, Nat.zero_add]
      exact Nat.le_add_right _ _
  | @cons a b c e matched p he hmatched _ ih =>
      simp only [List.length_cons, List.map_cons, List.sum_cons, Nat.mul_add]
      rcases hR hmatched with hP | hweight
      · have hlt := h.height_lt he hP
        omega
      · have hpos : 0 < g.height P a := height_pos he
        have hle := h.height_le b
        have hone : g.size * 1 ≤ g.size * weight matched := Nat.mul_le_mul_left _ hweight
        omega

/-- Where silent edges form no cycle, a path is no longer than the number of pairs
of a state and a number of tokens. -/
theorem Follows.length_le (h : g.Acyclic P) {R : Edge → List String → Prop}
    (hR : ∀ {e matched}, R e matched → P e ∨ matched ≠ []) {p : Path}
    (hp : g.Follows R a p b) : p.length ≤ g.size * (p.tokens.length + 1) := by
  have hle := hp.length_add_height_le h List.length fun hmatched =>
    (hR hmatched).imp_right List.length_pos_of_ne_nil
  have htop := h.height_le a
  have htokens : (p.map fun s => s.matched.length).sum = p.tokens.length := by
    rw [Path.tokens, List.length_flatMap]
  rw [htokens] at hle
  rw [Nat.mul_succ]
  omega

/-- Where no edges form a cycle, a path has no more steps than there are states. -/
theorem Follows.length_le_size (h : g.Acyclic fun _ => True) {R : Edge → List String → Prop}
    {p : Path} (hp : g.Follows R a p b) : p.length ≤ g.size := by
  have hle := hp.length_add_height_le h (fun _ => 0) fun _ => .inl trivial
  have htop := h.height_le a
  have hzero : (p.map fun _ => 0).sum = 0 := by simp
  rw [hzero] at hle
  omega

/-- Edges that lead upwards form no cycle. -/
theorem acyclic_of_lt (h : ∀ {a b e}, g.edge? a b = some e → P e → a < b) : g.Acyclic P := by
  have hjoins : ∀ {a b}, g.Joins P a b → a < b := by
    rintro a b ⟨e, he, hP⟩
    exact h he hP
  intro s hs
  have hself : s < s :=
    Relation.TransGen.trans_induction_on (motive := fun {a b} _ => a < b) hs hjoins
      fun _ _ => Nat.lt_trans
  exact Nat.lt_irrefl s hself

/-- It is enough to look at the edges that the graph holds. -/
theorem Valid.acyclic (hg : g.Valid) (h : ∀ e ∈ g.edges, P e → e.source < e.target) :
    g.Acyclic P := by
  refine acyclic_of_lt fun {a b e} he hP => ?_
  obtain ⟨i, -, hi⟩ := Option.bind_eq_some_iff.mp he
  obtain ⟨rfl, rfl⟩ := hg.of_edge? he
  exact h e (Array.mem_of_getElem? hi) hP

/-- In an ascending graph silent edges lead upwards. -/
theorem Ascending.acyclic (hg : g.Ascending) : g.Acyclic fun e => e.isEpsilon := by
  refine acyclic_of_lt fun {a b e} he hsilent => ?_
  rcases hg.lt_or_loop (mark?_of_edge? he) with hlt | ⟨-, hloop⟩
  · exact hlt
  · have hinput : e.input = wildcard := congrArg Mark.input hloop
    rw [Edge.isEpsilon, hinput] at hsilent
    exact absurd hsilent (by decide)

end Graph

end Utterance
