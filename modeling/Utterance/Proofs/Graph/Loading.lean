import Utterance.Proofs.Graph.Storage
import Utterance.Proofs.Latest

/-!
# Which data forms a graph

Data is read in three passes: the nodes, sorted by their numbers, must be numbered
from zero without gaps; the marks must name one start and one final state; and every
edge must stay among the states.  What the passes ask for together can be told from
the data as it is listed (`GraphData.Proper`), whatever the order of the nodes.

Edges are put into a list in which a new one replaces the one between the same states, so
the last one between two states counts (`Edge.foldl_put_eq_latest`).
-/

namespace Utterance

/-- To put in edges one after the other is to take the last one between every two states. -/
theorem Edge.foldl_put_eq_latest (l : List Edge) : l.foldl Edge.put [] = latest Edge.ends l := by
  induction l using List.reverseRecOn with
  | nil => rfl
  | append_singleton l e ih =>
      rw [List.foldl_concat, ih, latest_concat, Edge.put]
      congr

/-! ## The passes -/

namespace GraphData

/-- The nodes are numbered from zero, each number once; one of them is marked as the start
and one as final; and the edges join nodes of the list. -/
structure Proper (d : GraphData) : Prop where
  numbered : (d.nodes.map NodeData.id).Perm (List.range d.nodes.length)
  one_start : d.nodes.countP NodeData.isStart = 1
  one_final : d.nodes.countP NodeData.isFinal = 1
  inside : ∀ e ∈ d.edges, e.source < d.nodes.length ∧ e.target < d.nodes.length

/-- The nodes in the order of their numbers. -/
def sortedNodes (d : GraphData) : List NodeData := d.nodes.mergeSort fun a b => a.id ≤ b.id

theorem perm_sortedNodes (d : GraphData) : d.sortedNodes.Perm d.nodes := List.mergeSort_perm ..

theorem pairwise_sortedNodes (d : GraphData) :
    (d.sortedNodes.map NodeData.id).Pairwise (· ≤ ·) := by
  rw [List.pairwise_map]
  refine (List.pairwise_mergeSort ?_ ?_ d.nodes).imp fun h => of_decide_eq_true h
  · intro a b c hab hbc
    exact decide_eq_true ((of_decide_eq_true hab).trans (of_decide_eq_true hbc))
  · intro a b
    simpa using Nat.le_total a.id b.id

/-- Sorted, the numbers count up from zero just if each number up to their count is there once. -/
theorem ids_sortedNodes_iff (d : GraphData) :
    d.sortedNodes.map NodeData.id = List.range' 0 d.sortedNodes.length ↔
      (d.nodes.map NodeData.id).Perm (List.range d.nodes.length) := by
  have hperm := d.perm_sortedNodes.map NodeData.id
  rw [← List.range_eq_range', d.perm_sortedNodes.length_eq]
  constructor
  · intro heq
    exact heq ▸ hperm.symm
  · intro hids
    refine (hperm.trans hids).eq_of_pairwise (fun a b _ _ => Nat.le_antisymm)
      d.pairwise_sortedNodes ?_
    exact List.pairwise_lt_range.imp Nat.le_of_lt

/-- All nodes that are added are numbered on. -/
theorem ids_of_addNodes : ∀ {l : List NodeData} {words : List (Option String)} {g : Graph},
    addNodes (Graph.bare words) l = .ok g → l.map NodeData.id = List.range' words.length l.length
  | [], _, _, _ => rfl
  | n :: rest, words, g, h => by
      rw [addNodes] at h
      split at h
      next hid =>
        have hadd : (Graph.bare words).addState n.word = Graph.bare (words ++ [n.word]) := by
          simp [Graph.bare, Graph.addState]
        rw [hadd] at h
        have hrest := ids_of_addNodes h
        rw [List.length_append, List.length_singleton] at hrest
        rw [List.map_cons, hrest, List.length_cons, List.range'_succ, eq_of_beq hid,
          Graph.size_bare]
      next => cases h

theorem inside_of_addEdges : ∀ {l : List Edge} {g h : Graph}, addEdges g l = .ok h →
    ∀ e ∈ l, e.source < g.size ∧ e.target < g.size
  | [], _, _, _ => fun _ he => (List.not_mem_nil he).elim
  | e :: rest, g, h, hadd => by
      rw [addEdges] at hadd
      split at hadd
      next hin =>
        have hrest := inside_of_addEdges hadd
        simp only [Graph.size_modifyEdge, Graph.size_addEdge] at hrest
        exact List.forall_mem_cons.mpr ⟨by simpa using hin, hrest⟩
      next => cases hadd

variable {d : GraphData}

theorem ids_sortedNodes (hd : d.Proper) :
    d.sortedNodes.map NodeData.id = List.range' 0 d.sortedNodes.length :=
  d.ids_sortedNodes_iff.mpr hd.numbered

/-- Every node stands at the place that its number names. -/
theorem getElem?_sortedNodes (hd : d.Proper) {n : NodeData} (hn : n ∈ d.nodes) :
    d.sortedNodes[n.id]? = some n := by
  obtain ⟨i, hi⟩ := List.mem_iff_getElem?.mp (d.perm_sortedNodes.mem_iff.mpr hn)
  have hlt : i < d.sortedNodes.length := (List.getElem?_eq_some_iff.mp hi).1
  have hid : some n.id = some i := by
    calc some n.id = (d.sortedNodes.map NodeData.id)[i]? := by
          rw [List.getElem?_map, hi, Option.map_some]
      _ = some i := by rw [ids_sortedNodes hd, List.getElem?_range' hlt]; simp
  rw [Option.some.inj hid, hi]

/-- One node of the sorted list has a mark just if one of the listed nodes has it. -/
theorem exists_filter_sortedNodes_iff (d : GraphData) (p : NodeData → Bool) :
    (∃ n, d.sortedNodes.filter p = [n]) ↔ d.nodes.countP p = 1 := by
  rw [← List.length_eq_one_iff, ← List.countP_eq_length_filter, d.perm_sortedNodes.countP_eq]

theorem mem_of_filter_sortedNodes {p : NodeData → Bool} {n : NodeData}
    (h : d.sortedNodes.filter p = [n]) : n ∈ d.nodes ∧ p n = true := by
  have hmem : n ∈ d.sortedNodes.filter p := h ▸ List.mem_singleton_self n
  obtain ⟨hn, hp⟩ := List.mem_filter.mp hmem
  exact ⟨d.perm_sortedNodes.mem_iff.mp hn, hp⟩

end GraphData

/-! ## The graph of the data -/

namespace Graph

open GraphData

variable {d : GraphData} {g : Graph}

/-- Reading goes through the sorted nodes, then the marks, then the edges. -/
theorem ofData_eq (d : GraphData) : ofData d = (addNodes (bare []) d.sortedNodes).bind fun g =>
    match d.sortedNodes.filter NodeData.isStart, d.sortedNodes.filter NodeData.isFinal with
    | [s], [f] => addEdges ((g.setStart s.id).setFinal f.id) d.edges
    | starts, finals => .error (.ends starts.length finals.length) := rfl

theorem proper_of_ofData (h : ofData d = .ok g) : d.Proper := by
  rw [ofData_eq] at h
  cases hnodes : addNodes (bare []) d.sortedNodes with
  | error e =>
      rw [hnodes] at h
      cases h
  | ok g₀ =>
      rw [hnodes] at h
      simp only [Except.bind] at h
      have hids := ids_of_addNodes hnodes
      rw [addNodes_bare hids] at hnodes
      have hsize : g₀.size = d.nodes.length := by
        rw [← Except.ok.inj hnodes, size_bare, List.nil_append, List.length_map,
          d.perm_sortedNodes.length_eq]
      split at h
      next s f hs hf =>
        have hinside := inside_of_addEdges h
        exact ⟨d.ids_sortedNodes_iff.mp hids, (d.exists_filter_sortedNodes_iff _).mp ⟨s, hs⟩,
          (d.exists_filter_sortedNodes_iff _).mp ⟨f, hf⟩, fun e he => hsize ▸ hinside e he⟩
      next => cases h

/-- Proper data is read as the graph that it lists. -/
theorem exists_ofData (hd : d.Proper) : ∃ g, ofData d = .ok g ∧ g.Consistent ∧
    g.size = d.nodes.length ∧ (∀ n ∈ d.nodes, g.word? n.id = n.word) ∧
    (∃ n ∈ d.nodes, n.isStart = true ∧ g.start = some n.id) ∧
    (∃ n ∈ d.nodes, n.isFinal = true ∧ g.final = some n.id) ∧
    g.edges.toList = latest Edge.ends d.edges := by
  have hnodes : addNodes (bare []) d.sortedNodes = .ok (bare (d.sortedNodes.map NodeData.word)) :=
    addNodes_bare (ids_sortedNodes hd)
  obtain ⟨s, hs⟩ := (d.exists_filter_sortedNodes_iff _).mpr hd.one_start
  obtain ⟨f, hf⟩ := (d.exists_filter_sortedNodes_iff _).mpr hd.one_final
  obtain ⟨hsmem, hsmark⟩ := mem_of_filter_sortedNodes hs
  obtain ⟨hfmem, hfmark⟩ := mem_of_filter_sortedNodes hf
  have hlength : d.sortedNodes.length = d.nodes.length := d.perm_sortedNodes.length_eq
  have hsize : (bare (d.sortedNodes.map NodeData.word)).size = d.nodes.length := by simp [hlength]
  have hlt : ∀ n ∈ d.nodes, n.id < (bare (d.sortedNodes.map NodeData.word)).size := by
    intro n hn
    rw [hsize, ← hlength]
    exact (List.getElem?_eq_some_iff.mp (getElem?_sortedNodes hd hn)).1
  have hbare := ((consistent_bare (d.sortedNodes.map NodeData.word)).setStart
    (hlt s hsmem)).setFinal (hlt f hfmem)
  obtain ⟨g, hg, hcons, hsame, hedges⟩ := exists_addEdges (l := d.edges) hbare fun e he => by
    have hin := hd.inside e he
    exact ⟨hsize ▸ hin.1, hsize ▸ hin.2⟩
  refine ⟨g, ?_, hcons, hsame.size.trans hsize, fun n hn => (hsame.word n.id).trans ?_,
    ⟨s, hsmem, hsmark, hsame.start⟩, ⟨f, hfmem, hfmark, hsame.final⟩,
    hedges.trans (Edge.foldl_put_eq_latest d.edges)⟩
  · rw [ofData_eq, hnodes, hs, hf]
    exact hg
  · change (bare (d.sortedNodes.map NodeData.word)).word? n.id = n.word
    rw [word?_bare, List.getElem?_map, getElem?_sortedNodes hd hn]
    rfl

/-- Data is accepted just if its nodes are numbered `0, …, n - 1`, each number once and in
any order, one node is marked as the start and one as final, and all edges join such
numbers.  The graph then has these states with the words of their nodes, the marked ones are
its start and its final state, and its edges are the listed ones, where edges between the same
states are one edge: it stands where the first of them does and is the last of them.  What is
stored of this graph is read back as the graph. -/
theorem ofData_loads (d : GraphData) :
    ((∃ g, ofData d = .ok g) ↔ d.Proper) ∧
      ∀ g, ofData d = .ok g → g.Consistent ∧ g.size = d.nodes.length ∧
        (∀ n ∈ d.nodes, g.word? n.id = n.word) ∧
        (∃ n ∈ d.nodes, n.isStart = true ∧ g.start = some n.id) ∧
        (∃ n ∈ d.nodes, n.isFinal = true ∧ g.final = some n.id) ∧
        g.edges.toList = latest Edge.ends d.edges ∧ ofData g.toData = .ok g := by
  refine ⟨⟨fun ⟨g, hg⟩ => proper_of_ofData hg, fun hd => ?_⟩, fun g hg => ?_⟩
  · obtain ⟨g, hg, -⟩ := exists_ofData hd
    exact ⟨g, hg⟩
  · obtain ⟨g', hg', hcons, hsize, hword, ⟨s, hs, hstart, hs'⟩, ⟨f, hf, hfinal, hf'⟩, hedges⟩ :=
      exists_ofData (proper_of_ofData hg)
    obtain rfl : g' = g := Except.ok.inj (hg'.symm.trans hg)
    exact ⟨hcons, hsize, hword, ⟨s, hs, hstart, hs'⟩, ⟨f, hf, hfinal, hf'⟩, hedges,
      hcons.ofData_toData hs' hf'⟩

end Graph

end Utterance
