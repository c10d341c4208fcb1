import Utterance.Proofs.Failing
import Utterance.Proofs.Graph.Indexed
import Utterance.Proofs.Graph.Loading

/-!
# Storing an indexed graph and reading it back

What is stored of an indexed graph are its states with their marks and its edges; listed edges
and index are built anew when it is read.  A sound graph is known by its plain graph
(`Sound.ext`), and stores the data of this one (`Sound.toData_graph`).  Reading does to the plain
graph what reading a plain graph does, and ends with a sound graph (`ofData_graph`), so it gives
back the graph that was stored, with listed edges, index and marks (`Sound.ofData_toData`).
Hence marks and index can be added to every consistent graph, in one way (`exists_sound`).

As text this holds of every graph that calls have made, if the numbers that they have set are
read back (`History.parse_render`).
-/

namespace Utterance

namespace IndexedGraph

variable {g h : IndexedGraph}

/-! ## Known by the plain graph -/

/-- Sound graphs with the same plain graph are the same. -/
theorem Sound.ext (hg : g.Sound) (hh : h.Sound) (hgraph : h.graph = g.graph) : h = g := by
  have hedges : h.edges = g.edges := congrArg Graph.edges hgraph
  have hstart : h.start = g.start := congrArg Graph.start hgraph
  have hfinal : h.final = g.final := congrArg Graph.final hgraph
  have hsize : h.size = g.size := by rw [← size_graph, hgraph, size_graph]
  have hstates : h.states = g.states := by
    refine Array.ext hsize fun s hs hs' => ?_
    have hword : h.word? s = g.word? s := by rw [← word?_graph, hgraph, word?_graph]
    have hmark := hh.isStart_iff s
    have hmark' := hh.isFinal_iff s
    rw [hstart, ← hg.isStart_iff s, ← Bool.eq_iff_iff] at hmark
    rw [hfinal, ← hg.isFinal_iff s, ← Bool.eq_iff_iff] at hmark'
    simp only [isStart, isFinal, word?, Array.getElem?_eq_getElem hs, Array.getElem?_eq_getElem hs',
      Option.any_some, Option.bind_some] at hmark hmark' hword
    calc h.states[s] = ⟨h.states[s].isStart, h.states[s].isFinal, h.states[s].word⟩ := rfl
      _ = g.states[s] := by rw [hmark, hmark', hword]
  have hout : h.out = g.out := by
    refine Array.ext ?_ fun s hs hs' => ?_
    · rw [hh.size_out, hg.size_out, hsize]
    · have hlisted : (h.out.getD s #[]).toList = (g.out.getD s #[]).toList := by
        rw [← hh.outOf_graph, hgraph, hg.outOf_graph]
      simpa [Array.getD, hs, hs'] using Array.toList_inj.mp hlisted
  have hindex : h.index = g.index := by
    refine Std.ExtHashMap.ext_getElem? fun ends => Option.ext fun i => ?_
    rw [hh.indexed, hg.indexed, hedges]
  cases h
  cases g
  cases hstates
  cases hedges
  cases hout
  cases hindex
  cases hstart
  cases hfinal
  rfl

/-- The data of a sound graph is that of its plain graph. -/
theorem Sound.toData_graph (hg : g.Sound) : g.graph.toData = g.toData := by
  have hnodes : g.graph.toData.nodes = g.toData.nodes := by
    refine List.ext_getElem (by simp [Graph.toData, toData, size]) fun s hs hs' => ?_
    have hlt : s < g.states.size := by simpa [toData] using hs'
    have hmark : (g.start == some s) = g.states[s].isStart := by
      rw [Bool.eq_iff_iff, beq_iff_eq, ← hg.isStart_iff]
      simp [isStart, hlt]
    have hmark' : (g.final == some s) = g.states[s].isFinal := by
      rw [Bool.eq_iff_iff, beq_iff_eq, ← hg.isFinal_iff]
      simp [isFinal, hlt]
    have hword : g.word? s = g.states[s].word := by simp [word?, hlt]
    calc g.graph.toData.nodes[s] = ⟨s, g.start == some s, g.final == some s, g.word? s⟩ := by
          simp only [Graph.toData, List.getElem_map, List.getElem_range, Graph.nodeData,
            word?_graph]
          rfl
      _ = g.toData.nodes[s] := by
          rw [hmark, hmark', hword]
          simp [toData]
  exact congrArg (fun nodes => (⟨nodes, g.edges.toList⟩ : GraphData)) hnodes

/-! ## Reading data -/

/-- Nodes are added to the plain graph, and the graph stays sound. -/
theorem addNodes_graph : ∀ {l : List NodeData} {g : IndexedGraph}, g.Sound →
    (addNodes g l).map graph = GraphData.addNodes g.graph l ∧
      Except.Yields Sound (addNodes g l)
  | [], g, hg => ⟨rfl, Except.yields_ok hg⟩
  | n :: rest, g, hg => by
      rw [addNodes, GraphData.addNodes, size_graph]
      split
      next =>
        rw [← graph_addState hg.size_out]
        exact addNodes_graph (hg.addState n.word)
      next => exact ⟨rfl, Except.yields_error _⟩

/-- Edges are added to the plain graph, and the graph stays sound. -/
theorem addEdges_graph : ∀ {l : List Edge} {g : IndexedGraph}, g.Sound →
    (addEdges g l).map graph = GraphData.addEdges g.graph l ∧
      Except.Yields Sound (addEdges g l)
  | [], g, hg => ⟨rfl, Except.yields_ok hg⟩
  | e :: rest, g, hg => by
      rw [addEdges, GraphData.addEdges, size_graph]
      split
      next hin =>
        obtain ⟨hs, ht⟩ : e.source < g.size ∧ e.target < g.size := by simpa using hin
        have hadded := hg.addEdge hs ht e.input e.output
        have hnext := hadded.modifyEdge (Graph.keeps_decorated e.weight e.count) e.source e.target
        have hgraph : ((g.addEdge e.source e.target e.input e.output).modifyEdge e.source e.target
              (Edge.decorated e.weight e.count)).graph =
            (g.graph.addEdge e.source e.target e.input e.output).modifyEdge e.source e.target
              (Edge.decorated e.weight e.count) := by
          rw [hadded.graph_modifyEdge, hg.graph_addEdge]
        have hrest := addEdges_graph (l := rest) hnext
        rw [hgraph] at hrest
        exact hrest
      next => exact ⟨rfl, Except.yields_error _⟩

theorem ofData_eq (d : GraphData) : ofData d = (addNodes {} d.sortedNodes).bind fun g =>
    match d.sortedNodes.filter NodeData.isStart, d.sortedNodes.filter NodeData.isFinal with
    | [s], [f] => addEdges ((g.setStart s.id).setFinal f.id) d.edges
    | starts, finals => .error (.ends starts.length finals.length) := rfl

/-- Reading data gives a sound graph, whose plain graph is what is read as a plain graph, or
fails in the same way. -/
theorem ofData_graph (d : GraphData) :
    (ofData d).map graph = Graph.ofData d ∧ Except.Yields Sound (ofData d) := by
  obtain ⟨hnodes, hsound⟩ := addNodes_graph (l := d.sortedNodes) sound_empty
  rw [ofData_eq, Graph.ofData_eq]
  cases hadd : addNodes {} d.sortedNodes with
  | error e =>
      rw [hadd] at hnodes
      have hplain : GraphData.addNodes (Graph.bare []) d.sortedNodes = .error e := hnodes.symm
      rw [hplain]
      exact ⟨rfl, Except.yields_error _⟩
  | ok g =>
      rw [hadd] at hnodes
      have hplain : GraphData.addNodes (Graph.bare []) d.sortedNodes = .ok g.graph := hnodes.symm
      have hg := hsound g hadd
      -- the nodes are numbered from zero, so those with a mark are there
      have hids := GraphData.ids_of_addNodes hplain
      have hsize : g.size = d.sortedNodes.length := by
        rw [Graph.addNodes_bare hids] at hplain
        rw [← size_graph, ← Except.ok.inj hplain]
        simp
      have hlt : ∀ n ∈ d.sortedNodes, n.id < g.size := fun n hn => by
        have hmem : n.id ∈ List.range' 0 d.sortedNodes.length := hids ▸ List.mem_map_of_mem hn
        rw [hsize]
        simpa using hmem
      have hstarts : ∀ n ∈ d.sortedNodes.filter NodeData.isStart, n.id < g.size := fun n hn =>
        hlt n (List.mem_filter.mp hn).1
      have hfinals : ∀ n ∈ d.sortedNodes.filter NodeData.isFinal, n.id < g.size := fun n hn =>
        hlt n (List.mem_filter.mp hn).1
      rw [hplain]
      simp only [Except.bind]
      generalize d.sortedNodes.filter NodeData.isStart = starts at hstarts ⊢
      generalize d.sortedNodes.filter NodeData.isFinal = finals at hfinals ⊢
      rcases starts with _ | ⟨s, _ | ⟨s', starts⟩⟩ <;>
        rcases finals with _ | ⟨f, _ | ⟨f', finals⟩⟩ <;>
        try exact ⟨rfl, Except.yields_error _⟩
      have hs : s.id < g.size := hstarts s List.mem_cons_self
      have hf : f.id < (g.setStart s.id).size := by
        simpa [setStart, size] using hfinals f List.mem_cons_self
      have hends := (hg.setStart hs).setFinal hf
      have hgraph : ((g.setStart s.id).setFinal f.id).graph =
          (g.graph.setStart s.id).setFinal f.id := by
        rw [graph_setFinal, graph_setStart]
      have hedges := addEdges_graph (l := d.edges) hends
      rw [hgraph] at hedges
      exact hedges

/-- Reading back the data of a sound graph that has a start and a final state gives this
graph. -/
theorem Sound.ofData_toData (hg : g.Sound) {s f : Nat} (hs : g.start = some s)
    (hf : g.final = some f) : ofData g.toData = .ok g := by
  obtain ⟨hplain, hsound⟩ := ofData_graph g.toData
  have hread : Graph.ofData g.toData = .ok g.graph := by
    rw [← hg.toData_graph]
    exact hg.consistent.ofData_toData hs hf
  rw [hread] at hplain
  obtain ⟨h, hdata, hgraph⟩ := Except.map_eq_ok.mp hplain
  rw [hdata, hg.ext (hsound h hdata) hgraph]

/-- A consistent graph with a start and a final state is the plain graph of a sound one, and of
no other. -/
theorem exists_sound {k : Graph} (hk : k.Consistent) {s f : Nat} (hs : k.start = some s)
    (hf : k.final = some f) : ∃ g : IndexedGraph, (g.Sound ∧ g.graph = k) ∧
      ∀ h : IndexedGraph, h.Sound → h.graph = k → h = g := by
  obtain ⟨hplain, hsound⟩ := ofData_graph k.toData
  rw [hk.ofData_toData hs hf] at hplain
  obtain ⟨g, hg, hgraph⟩ := Except.map_eq_ok.mp hplain
  exact ⟨g, ⟨hsound g hg, hgraph⟩, fun h hh hsame => (hsound g hg).ext hh (hsame.trans hgraph.symm)⟩

/-! ## Reading text -/

/-- The plain graph is what is read of the text as a plain graph. -/
theorem parse_graph (s : String) : (parse s).map graph = Graph.parse s := by
  unfold parse Graph.parse
  cases Json.readFirst? s with
  | none => rfl
  | some read =>
      simp only
      cases GraphData.ofJson? read.1 with
      | none => rfl
      | some data =>
          simp only
          rw [← (ofData_graph data).1]
          cases ofData data with
          | error e => rfl
          | ok g =>
              simp only [Except.map]
              cases (Json.skipSpaces read.2).isEmpty <;> rfl

/-- A graph that calls have made, with a start and a final state, is read back from its text
with all that it keeps: states, words and marks, edges, listed edges, index, start and final
state.  So is its data.  The weights that the calls have set have to be finite and must be read
back. -/
theorem History.parse_render {calls : List GraphCall} (hg : History calls g) {s f : Nat}
    (hs : g.start = some s) (hf : g.final = some f) (hsize : g.size ≤ Decimal.maxNat64)
    (hweights : ∀ a b x c, .decorate a b (some x) c ∈ calls →
      x.isFinite = true ∧ Json.ReadsBack (.float x))
    (hcounts : ∀ a b w c, .decorate a b w (some c) ∈ calls → c ≤ Decimal.maxNat64) :
    ofData g.toData = .ok g ∧ GraphData.ofJson? g.toJson = some g.toData ∧
      parse g.toJson.render = .ok g := by
  have hdata := hg.sound.ofData_toData hs hf
  obtain ⟨hjson, hread⟩ :=
    hg.graph.readFirst?_toJson (by rwa [size_graph]) hweights hcounts
  have htoJson : g.graph.toJson = g.toJson := congrArg GraphData.toJson hg.sound.toData_graph
  rw [htoJson] at hjson hread
  rw [hg.sound.toData_graph] at hjson
  refine ⟨hdata, hjson, ?_⟩
  rw [parse, hread]
  simp only [hjson, hdata]
  rfl

end IndexedGraph

theorem Json.readsBack_half : ReadsBack (.float 0.5) := by
  intro n rest _ hrest
  have htext : (render (.float 0.5)).toList = ['0', '.', '5'] := rfl
  have hvalue : floatOf false ['0'] ['5'] 0 = .float 0.5 := rfl
  rw [htext, ← hvalue]
  cases rest with
  | nil => rfl
  | cons c rest => rcases hrest c rfl with rfl | rfl | rfl <;> rfl

/-- The graph with a loop, an edge that was written again, marks that have moved and a weight is
stored and read back. -/
theorem parse_render_switchGraph :
    IndexedGraph.ofData switchGraph.toData = .ok switchGraph ∧
      IndexedGraph.parse switchGraph.toJson.render = .ok switchGraph := by
  have hstart : switchGraph.start = some 0 := history_switchGraph.graph.start_eq
  have hfinal : switchGraph.final = some 2 := history_switchGraph.graph.final_eq
  have hsize : switchGraph.size ≤ Decimal.maxNat64 := by
    rw [← IndexedGraph.size_graph, switchGraph,
      IndexedGraph.sound_empty.graph_foldl_after allFit_switchCalls]
    decide
  have hstored := history_switchGraph.parse_render hstart hfinal hsize
    (fun a b x c hmem => by
      obtain rfl : x = 0.5 := by
        simp [switchCalls] at hmem
        exact hmem.2.2.1
      exact ⟨rfl, Json.readsBack_half⟩)
    (fun a b w c hmem => by
      obtain rfl : c = 3 := by
        simp [switchCalls] at hmem
        exact hmem.2.2.2
      decide)
  exact ⟨hstored.1, hstored.2.2⟩

end Utterance
