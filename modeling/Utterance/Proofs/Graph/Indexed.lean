import Utterance.Graph.Indexed
import Utterance.Proofs.Graph.History

/-!
# Flags and index are kept in step

An indexed graph tells some things twice: that a state is the start, by its number and by a
mark at the state; and where the edge between two states is kept, by the edges and by the
index.  `Sound` says that the two agree.

Every operation keeps the graph sound, and the graph without marks and index is what the same
operation on plain graphs makes of it (`graph_addState`, `graph_addEdge`, and so on).  So this
holds after any calls (`History.sound`, `History.graph`), and what these tell of a plain graph
they tell of the indexed one, whose answers are looked up (`History.tells_edges`).
-/

namespace Utterance

namespace IndexedGraph

/-! ## Marks -/

section

variable {α : Type} {states : Array StateRecord} {old : Option Nat} {new i : Nat}
  {mark : Bool → StateRecord → StateRecord}

@[simp] theorem size_moveMark : (moveMark mark old new states).size = states.size := by
  cases old <;> simp [moveMark]

/-- What does not depend on the mark is as it was. -/
theorem map_moveMark {f : StateRecord → α} (hf : ∀ b q, f (mark b q) = f q) :
    ((moveMark mark old new states)[i]?).map f = (states[i]?).map f := by
  have hmark : ∀ (b : Bool) (l : Array StateRecord) (a : Nat),
      ((l.modify a (mark b))[i]?).map f = (l[i]?).map f := fun b l a => by
    rw [Array.getElem?_modify]
    split
    · rw [Option.map_map, show f ∘ mark b = f from funext (hf b)]
    · rfl
  cases old with
  | none => exact hmark true states new
  | some a => exact (hmark true _ new).trans (hmark false states a)

theorem any_modify_mark {get : StateRecord → Bool} (hget : ∀ b q, get (mark b q) = b) (b : Bool)
    (a : Nat) : ((states.modify a (mark b))[i]?).any get =
      if a = i then b && decide (i < states.size) else (states[i]?).any get := by
  rw [Array.getElem?_modify]
  split
  · by_cases hi : i < states.size <;> simp [hi, hget]
  · rfl

/-- If only the old state had the mark then only the new one has it afterwards. -/
theorem any_moveMark {get : StateRecord → Bool} (hget : ∀ b q, get (mark b q) = b)
    (hold : ∀ i, (states[i]?).any get = true ↔ old = some i) (hnew : new < states.size) :
    ((moveMark mark old new states)[i]?).any get = true ↔ some new = some i := by
  have hcleared : ∀ cleared : Array StateRecord, cleared.size = states.size →
      (i ≠ new → (cleared[i]?).any get = false) →
      (((cleared.modify new (mark true))[i]?).any get = true ↔ some new = some i) := by
    intro cleared hsize hothers
    rw [any_modify_mark hget, Option.some_inj]
    by_cases hi : new = i
    · subst hi
      simp [hsize, hnew]
    · simp [hi, hothers (Ne.symm hi)]
  cases old with
  | none =>
      refine hcleared states rfl fun _ => Bool.eq_false_iff.mpr fun h => ?_
      cases (hold i).mp h
  | some a =>
      refine hcleared _ (Array.size_modify ..) fun _ => ?_
      rw [any_modify_mark hget]
      split
      · rfl
      next ha => exact Bool.eq_false_iff.mpr fun h => ha (Option.some.inj ((hold i).mp h))

end

/-! ## What the plain graph keeps -/

variable {g h : IndexedGraph} {s t : Nat}

@[simp] theorem size_graph (g : IndexedGraph) : g.graph.size = g.size := by
  simp [graph, Graph.size, size]

theorem getElem?_nodes_graph (g : IndexedGraph) (s : Nat) :
    g.graph.nodes[s]? = (g.states[s]?).map fun q => ⟨q.word, g.out.getD s #[]⟩ := by
  rw [graph, Array.getElem?_mapIdx]

@[simp] theorem word?_graph (g : IndexedGraph) (s : Nat) : g.graph.word? s = g.word? s := by
  rw [Graph.word?, getElem?_nodes_graph, word?]
  cases g.states[s]? <;> rfl

/-- The marks and the index of a graph agree with what they are about, and all states that are
named are there. -/
structure Sound (g : IndexedGraph) : Prop where
  consistent : g.graph.Consistent
  size_out : g.out.size = g.size
  isStart_iff : ∀ s, g.isStart s = true ↔ g.start = some s
  isFinal_iff : ∀ s, g.isFinal s = true ↔ g.final = some s
  indexed : ∀ s t i, g.index[(s, t)]? = some i ↔
    ∃ e : Edge, g.edges[i]? = some e ∧ e.ends = (s, t)

namespace Sound

theorem outOf_graph (hg : g.Sound) (s : Nat) : g.graph.outOf s = (g.out.getD s #[]).toList := by
  rw [Graph.outOf, getElem?_nodes_graph]
  cases hs : g.states[s]? with
  | some q => rfl
  | none =>
      have hle : g.out.size ≤ s := hg.size_out ▸ Array.getElem?_eq_none_iff.mp hs
      simp [Array.getD, Nat.not_lt.mpr hle]

/-- The edges listed at a state are those of the plain graph. -/
theorem edgesFrom_graph (hg : g.Sound) (s : Nat) : g.graph.edgesFrom s = g.edgesFrom s := by
  rw [Graph.edgesFrom, hg.outOf_graph]
  rfl

/-- The index finds what a search among the edges of the source finds. -/
theorem position?_graph (hg : g.Sound) (s t : Nat) : g.graph.position? s t = g.index[(s, t)]? := by
  refine Option.ext fun i => ?_
  rw [hg.indexed]
  constructor
  · intro hpos
    obtain ⟨e, he, hsource, htarget⟩ := hg.consistent.valid.of_position? hpos
    exact ⟨e, he, Prod.ext hsource htarget⟩
  · rintro ⟨e, he, hends⟩
    cases hpos : g.graph.position? s t with
    | none =>
        have hmem : e ∈ g.graph.edges.toList :=
          Array.mem_toList_iff.mpr (Array.mem_of_getElem? he)
        exact absurd (List.mem_map.mpr ⟨e, hmem, hends⟩)
          (hg.consistent.position?_eq_none_iff.mp hpos)
    | some j =>
        obtain ⟨f, hf, hsource, htarget⟩ := hg.consistent.valid.of_position? hpos
        have hsame : f.ends = e.ends := (Prod.ext hsource htarget : f.ends = (s, t)).trans hends.symm
        exact congrArg some (hg.consistent.position_unique hf he hsame)

theorem edge?_graph (hg : g.Sound) (s t : Nat) : g.graph.edge? s t = g.edge? s t := by
  rw [Graph.edge?, hg.position?_graph]
  rfl

end Sound

/-! ## What the operations make of the plain graph -/

theorem getD_out_of_size_le (hout : g.out.size = g.size) (hs : g.size ≤ s) :
    g.out.getD s #[] = #[] := by
  rw [Array.getD_eq_getD_getElem?, Array.getElem?_eq_none (hout ▸ hs)]
  rfl

/-- Plain graphs are the same if the words and the edges listed at all states are. -/
theorem nodes_graph_congr (hsize : h.size = g.size) (hword : ∀ s, h.word? s = g.word? s)
    (hout : ∀ s < g.size, h.out.getD s #[] = g.out.getD s #[]) : h.graph.nodes = g.graph.nodes := by
  refine Array.ext (by simpa [graph, size] using hsize) fun s hs hs' => ?_
  have hlt : s < g.states.size := by simpa [graph] using hs'
  have hlt' : s < h.states.size := by simpa [graph] using hs
  have hwords := hword s
  simp only [word?, Array.getElem?_eq_getElem hlt, Array.getElem?_eq_getElem hlt',
    Option.bind_some] at hwords
  simp only [graph, Array.getElem_mapIdx, hwords, hout s hlt]

theorem graph_addState (hout : g.out.size = g.size) (w : Option String) :
    (g.addState w).graph = g.graph.addState w := by
  have hpushed : ∀ s, (g.out.push #[]).getD s #[] = g.out.getD s #[] := fun s => by
    rw [Array.getD_eq_getD_getElem?, Array.getD_eq_getD_getElem?, Array.getElem?_push]
    split
    next hs => simp [hs]
    next => rfl
  have hnew : g.out.getD g.states.size #[] = #[] := getD_out_of_size_le hout (Nat.le_refl _)
  simp only [graph, addState, Graph.addState, hpushed, Array.mapIdx_push, hnew]

/-- Marks do not change the words. -/
theorem word?_of_moveMark {mark : Bool → StateRecord → StateRecord} {old : Option Nat} {new : Nat}
    (hstates : h.states = moveMark mark old new g.states) (hmark : ∀ b q, (mark b q).word = q.word)
    (s : Nat) : h.word? s = g.word? s := by
  have hwords : ((moveMark mark old new g.states)[s]?).map StateRecord.word =
      (g.states[s]?).map StateRecord.word := map_moveMark hmark
  have hbind : ∀ q : Option StateRecord, q.bind StateRecord.word = (q.map StateRecord.word).join :=
    fun q => by cases q <;> rfl
  rw [word?, word?, hstates, hbind, hbind, hwords]

theorem graph_setStart (g : IndexedGraph) (a : Nat) :
    (g.setStart a).graph = g.graph.setStart a := by
  have hnodes : (g.setStart a).graph.nodes = g.graph.nodes :=
    nodes_graph_congr (by simp [setStart, size]) (word?_of_moveMark rfl fun _ _ => rfl)
      fun _ _ => rfl
  exact congrArg (fun nodes => (⟨nodes, g.edges, some a, g.final⟩ : Graph)) hnodes

theorem graph_setFinal (g : IndexedGraph) (a : Nat) :
    (g.setFinal a).graph = g.graph.setFinal a := by
  have hnodes : (g.setFinal a).graph.nodes = g.graph.nodes :=
    nodes_graph_congr (by simp [setFinal, size]) (word?_of_moveMark rfl fun _ _ => rfl)
      fun _ _ => rfl
  exact congrArg (fun nodes => (⟨nodes, g.edges, g.start, some a⟩ : Graph)) hnodes

theorem Sound.graph_modifyEdge (hg : g.Sound) (a b : Nat) (f : Edge → Edge) :
    (g.modifyEdge a b f).graph = g.graph.modifyEdge a b f := by
  unfold modifyEdge Graph.modifyEdge
  rw [hg.position?_graph]
  cases g.index[(a, b)]? <;> rfl

theorem Sound.graph_addEdge (hg : g.Sound) (a b : Nat) (i o : String) :
    (g.addEdge a b i o).graph = g.graph.addEdge a b i o := by
  unfold addEdge Graph.addEdge
  rw [hg.position?_graph]
  cases g.index[(a, b)]? with
  | some k => rfl
  | none =>
      have hnodes : g.states.mapIdx (fun s q =>
            (⟨q.word, (g.out.modify a (·.push g.edges.size)).getD s #[]⟩ : GraphNode)) =
          g.graph.nodes.modify a fun n => { n with out := n.out.push g.edges.size } := by
        refine Array.ext_getElem? fun s => ?_
        rw [Array.getElem?_mapIdx, Array.getElem?_modify, getElem?_nodes_graph,
          Array.getD_eq_getD_getElem?, Array.getElem?_modify, Array.getD_eq_getD_getElem?]
        cases hs : g.states[s]? with
        | none => simp
        | some q =>
            have hlt : s < g.out.size := hg.size_out ▸ (Array.getElem?_eq_some_iff.mp hs).1
            by_cases has : a = s <;> simp [has, hlt]
      exact congrArg (fun nodes =>
        (⟨nodes, g.edges.push ⟨a, b, i, o, none, none⟩, g.start, g.final⟩ : Graph)) hnodes

/-! ## What the operations keep -/

@[simp] theorem size_modifyEdge (g : IndexedGraph) (a b : Nat) (f : Edge → Edge) :
    (g.modifyEdge a b f).size = g.size := by
  unfold modifyEdge
  split <;> rfl

@[simp] theorem size_addEdge (g : IndexedGraph) (a b : Nat) (i o : String) :
    (g.addEdge a b i o).size = g.size := by
  unfold addEdge
  split <;> rfl

/-- A new state has no marks. -/
theorem any_push_record (states : Array StateRecord) (w : Option String) (s : Nat)
    {get : StateRecord → Bool} (hget : get { word := w } = false) :
    ((states.push { word := w })[s]?).any get = (states[s]?).any get := by
  rw [Array.getElem?_push]
  split
  next hs => simp [hs, hget]
  next => rfl

/-- A mark that does not depend on the one that is moved stays where it is. -/
theorem any_of_map_eq {states states' : Array StateRecord} {get : StateRecord → Bool} {s : Nat}
    (h : (states'[s]?).map get = (states[s]?).map get) :
    (states'[s]?).any get = (states[s]?).any get := by
  cases hs : states[s]? <;> cases hs' : states'[s]? <;> simp_all

theorem isFinal_setStart (g : IndexedGraph) (a s : Nat) :
    (g.setStart a).isFinal s = g.isFinal s := by
  have hkept : ∀ b q, (StateRecord.markStart b q).isFinal = q.isFinal := fun _ _ => rfl
  exact any_of_map_eq (map_moveMark hkept)

theorem isStart_setFinal (g : IndexedGraph) (a s : Nat) :
    (g.setFinal a).isStart s = g.isStart s := by
  have hkept : ∀ b q, (StateRecord.markFinal b q).isStart = q.isStart := fun _ _ => rfl
  exact any_of_map_eq (map_moveMark hkept)

theorem sound_empty : Sound {} where
  consistent := Graph.consistent_empty
  size_out := rfl
  isStart_iff s := by simp [isStart]
  isFinal_iff s := by simp [isFinal]
  indexed s t i := by simp

namespace Sound

theorem addState (hg : g.Sound) (w : Option String) : (g.addState w).Sound where
  consistent := by
    rw [graph_addState hg.size_out]
    exact hg.consistent.addState w
  size_out := by simp [IndexedGraph.addState, size, hg.size_out]
  isStart_iff s := by
    rw [isStart, IndexedGraph.addState, any_push_record _ _ _ rfl]
    exact hg.isStart_iff s
  isFinal_iff s := by
    rw [isFinal, IndexedGraph.addState, any_push_record _ _ _ rfl]
    exact hg.isFinal_iff s
  indexed := hg.indexed

theorem setStart (hg : g.Sound) {a : Nat} (ha : a < g.size) : (g.setStart a).Sound where
  consistent := by
    rw [graph_setStart]
    exact hg.consistent.setStart (by rwa [size_graph])
  size_out := by simpa [IndexedGraph.setStart, size] using hg.size_out
  isStart_iff _ := any_moveMark (fun _ _ => rfl) hg.isStart_iff ha
  isFinal_iff s := by
    rw [isFinal_setStart]
    exact hg.isFinal_iff s
  indexed := hg.indexed

theorem setFinal (hg : g.Sound) {a : Nat} (ha : a < g.size) : (g.setFinal a).Sound where
  consistent := by
    rw [graph_setFinal]
    exact hg.consistent.setFinal (by rwa [size_graph])
  size_out := by simpa [IndexedGraph.setFinal, size] using hg.size_out
  isStart_iff s := by
    rw [isStart_setFinal]
    exact hg.isStart_iff s
  isFinal_iff _ := any_moveMark (fun _ _ => rfl) hg.isFinal_iff ha
  indexed := hg.indexed

theorem modifyEdge (hg : g.Sound) {f : Edge → Edge} (hf : Graph.Keeps f) (a b : Nat) :
    (g.modifyEdge a b f).Sound := by
  have hcons := hg.consistent.modifyEdge hf a b
  rw [← hg.graph_modifyEdge] at hcons
  unfold IndexedGraph.modifyEdge at hcons ⊢
  cases hindex : g.index[(a, b)]? with
  | none => exact hg
  | some k =>
      rw [hindex] at hcons
      refine ⟨hcons, hg.size_out, hg.isStart_iff, hg.isFinal_iff, fun s t i => ?_⟩
      have hends : ∀ e : Edge, (f e).ends = e.ends := fun e => Prod.ext (hf e).1 (hf e).2
      refine (hg.indexed s t i).trans ?_
      simp only [Array.getElem?_modify]
      split
      · simp [hends]
      · exact Iff.rfl

theorem addEdge (hg : g.Sound) {a b : Nat} (ha : a < g.size) (hb : b < g.size) (i o : String) :
    (g.addEdge a b i o).Sound := by
  have hcons : (g.graph.addEdge a b i o).Consistent :=
    hg.consistent.addEdge (by rwa [size_graph]) (by rwa [size_graph]) i o
  rw [← hg.graph_addEdge] at hcons
  cases hindex : g.index[(a, b)]? with
  | some k =>
      have hmodify : g.addEdge a b i o = g.modifyEdge a b (Graph.relabelled i o) := by
        rw [IndexedGraph.addEdge, IndexedGraph.modifyEdge, hindex]
        rfl
      rw [hmodify]
      exact hg.modifyEdge (Graph.keeps_relabelled i o) a b
  | none =>
      unfold IndexedGraph.addEdge at hcons ⊢
      rw [hindex] at hcons ⊢
      refine ⟨hcons, by simpa [size] using hg.size_out, hg.isStart_iff, hg.isFinal_iff,
        fun s t k => ?_⟩
      have hold := hg.indexed s t k
      simp only [Std.ExtHashMap.getElem?_insert, Array.getElem?_push, beq_iff_eq]
      by_cases hst : (a, b) = (s, t)
      · -- no edge joined the two states, so the new one is the only one that does
        have hnot : ¬ ∃ e : Edge, g.edges[k]? = some e ∧ e.ends = (s, t) := fun h => by
          rw [← hold, ← hst, hindex] at h
          cases h
        rw [if_pos hst]
        split
        next hk => simpa [hk, Edge.ends] using hst
        next hk => simpa [Ne.symm hk] using hnot
      · rw [if_neg hst, hold]
        split
        next hk => simpa [hk, Edge.ends] using hst
        next => exact Iff.rfl

end Sound

/-! ## Calls -/

/-- What a call makes of an indexed graph. -/
def after (g : IndexedGraph) : GraphCall → IndexedGraph
  | .addState word => g.addState word
  | .setStart s => g.setStart s
  | .setFinal s => g.setFinal s
  | .addEdge s t input output => g.addEdge s t input output
  | .decorate s t weight count => g.modifyEdge s t (Edge.decorated weight count)

/-- The graph is what the calls, one after the other, make of the empty graph. -/
inductive History : List GraphCall → IndexedGraph → Prop where
  | empty : History [] {}
  | call {calls : List GraphCall} {g : IndexedGraph} {c : GraphCall} :
      History calls g → c.Fits g.graph → History (calls ++ [c]) (g.after c)

/-- A call on states that are there keeps the graph sound and does to the plain graph what it
says. -/
theorem Sound.after (hg : g.Sound) {c : GraphCall} (hc : c.Fits g.graph) :
    (g.after c).Sound ∧ (g.after c).graph = c.apply g.graph := by
  cases c with
  | addState word => exact ⟨hg.addState word, graph_addState hg.size_out word⟩
  | setStart s => exact ⟨hg.setStart (size_graph g ▸ hc), graph_setStart g s⟩
  | setFinal s => exact ⟨hg.setFinal (size_graph g ▸ hc), graph_setFinal g s⟩
  | addEdge s t i o =>
      have hs : s < g.size := size_graph g ▸ hc.1
      have ht : t < g.size := size_graph g ▸ hc.2
      exact ⟨hg.addEdge hs ht i o, hg.graph_addEdge s t i o⟩
  | decorate s t weight count =>
      exact ⟨hg.modifyEdge (Graph.keeps_decorated weight count) s t, hg.graph_modifyEdge s t _⟩

/-- Calls do to the plain graph what they say. -/
theorem Sound.graph_foldl_after {calls : List GraphCall} (hg : g.Sound)
    (hcalls : GraphCall.AllFit g.graph calls) :
    (calls.foldl IndexedGraph.after g).graph = calls.foldl GraphCall.apply g.graph := by
  induction calls generalizing g with
  | nil => rfl
  | cons c calls ih =>
      obtain ⟨hsound, hgraph⟩ := hg.after hcalls.1
      have hrest := hcalls.2
      rw [← hgraph] at hrest
      rw [List.foldl_cons, List.foldl_cons, ih hsound hrest, hgraph]

namespace History

theorem sound {calls : List GraphCall} (hg : History calls g) : g.Sound := by
  induction hg with
  | empty => exact sound_empty
  | call _ hc ih => exact (ih.after hc).1

theorem calls {before calls : List GraphCall} (hg : History before g)
    (hcalls : GraphCall.AllFit g.graph calls) : History (before ++ calls) (calls.foldl after g) := by
  induction calls generalizing before g with
  | nil => rwa [List.append_nil]
  | cons c calls ih =>
      rw [List.append_cons]
      refine ih (hg.call hcalls.1) ?_
      rw [(hg.sound.after hcalls.1).2]
      exact hcalls.2

variable {calls : List GraphCall}

/-- The calls have made the plain graph as well. -/
theorem graph (hg : History calls g) : Graph.History calls g.graph := by
  induction hg with
  | empty => exact .empty
  | call hg hc ih =>
      rw [(hg.sound.after hc).2]
      exact ih.call hc

/-- Every plain graph that calls have made is that of an indexed one. -/
theorem exists_indexed {k : Graph} (hk : Graph.History calls k) :
    ∃ g, History calls g ∧ g.graph = k := by
  induction hk with
  | empty => exact ⟨{}, .empty, rfl⟩
  | call _ hc ih =>
      obtain ⟨g, hg, rfl⟩ := ih
      exact ⟨_, hg.call hc, (hg.sound.after hc).2⟩

/-- After any calls on states that are there: no two edges join the same states, and the index
holds the positions of all of them; what is found between two states has the labels that were
last given to the edge between them; at a state are listed all the edges with that source, each
once and in the order in which their targets first came up; all edges join states that are
there; and the start, which is the state that was last made so, is the only state marked as the
start, and likewise the final state. -/
theorem tells_edges (hg : History calls g) :
    (g.edges.toList.map Edge.ends).Nodup ∧
      (∀ s t i, g.index[(s, t)]? = some i ↔ ∃ e : Edge, g.edges[i]? = some e ∧ e.ends = (s, t)) ∧
      (∀ s t, (g.edge? s t).map Edge.labels =
        (calls.filterMap (GraphCall.labelsFor? s t)).getLast?) ∧
      (∀ s t e, g.edge? s t = some e ↔ e ∈ g.edges.toList ∧ e.ends = (s, t)) ∧
      (∀ s, (∀ i ∈ (g.out.getD s #[]).toList, i < g.edges.size) ∧
        g.edgesFrom s = g.edges.toList.filter (·.source == s)) ∧
      (∀ s, (g.edgesFrom s).map Edge.target =
        (calls.filterMap (GraphCall.targetFrom? s)).eraseDups) ∧
      (∀ e ∈ g.edges.toList, e.source < g.size ∧ e.target < g.size) ∧
      (g.start = (calls.filterMap GraphCall.start?).getLast? ∧
        ∀ s, g.isStart s = true ↔ g.start = some s) ∧
      (g.final = (calls.filterMap GraphCall.final?).getLast? ∧
        ∀ s, g.isFinal s = true ↔ g.final = some s) := by
  have hsound := hg.sound
  have hcons := hsound.consistent
  have hplain := hg.graph
  refine ⟨hcons.distinct, hsound.indexed, fun s t => ?_, fun s t e => ?_, fun s => ?_, fun s => ?_,
    ?_, ⟨hplain.start_eq, hsound.isStart_iff⟩, ⟨hplain.final_eq, hsound.isFinal_iff⟩⟩
  · rw [← hsound.edge?_graph]
    exact hplain.labels_eq s t
  · rw [← hsound.edge?_graph]
    exact hcons.edge?_eq_some_iff
  · refine ⟨fun i hi => ?_, (hsound.edgesFrom_graph s).symm.trans (hcons.edgesFrom_eq s)⟩
    rw [← hsound.outOf_graph] at hi
    obtain ⟨e, he, -⟩ := hcons.valid.listed hi
    exact (Array.getElem?_eq_some_iff.mp he).1
  · rw [← hsound.edgesFrom_graph]
    exact hplain.targets_eq s
  · rw [← size_graph]
    exact hcons.inside

end History

end IndexedGraph

/-- An edge is written again, a loop is added, and the start and the final state are moved. -/
def switchCalls : List GraphCall :=
  [.addState none, .addState (some "on"), .setStart 1, .addEdge 0 1 "on" "on", .addState none,
    .addEdge 0 2 "" "", .addEdge 1 1 "*" "*", .addEdge 0 1 "off" "", .setFinal 1, .setFinal 2,
    .setStart 0, .decorate 0 1 (some 0.5) (some 3)]

def switchGraph : IndexedGraph := switchCalls.foldl IndexedGraph.after {}

theorem allFit_switchCalls : GraphCall.AllFit {} switchCalls := by decide

theorem history_switchGraph : IndexedGraph.History switchCalls switchGraph :=
  IndexedGraph.History.empty.calls allFit_switchCalls

/-- The edge that is written again keeps its place before the other one, and the marks have
moved with the start and the final state. -/
theorem tells_edges_switchGraph :
    IndexedGraph.History switchCalls switchGraph ∧
      (switchGraph.edge? 0 1).map Edge.labels = some ("off", "") ∧
      (switchGraph.edgesFrom 0).map Edge.target = [1, 2] ∧
      (switchGraph.edgesFrom 1).map Edge.target = [1] ∧
      switchGraph.start = some 0 ∧ switchGraph.isStart 0 = true ∧ switchGraph.isStart 1 = false ∧
      switchGraph.final = some 2 ∧ switchGraph.isFinal 2 = true ∧
      switchGraph.isFinal 1 = false := by
  obtain ⟨-, -, hlabels, -, -, htargets, -, ⟨hstart, hmark⟩, ⟨hfinal, hmark'⟩⟩ :=
    history_switchGraph.tells_edges
  have hstart : switchGraph.start = some 0 := hstart
  have hfinal : switchGraph.final = some 2 := hfinal
  refine ⟨history_switchGraph, ?_, ?_, ?_, hstart, (hmark 0).mpr hstart, ?_, hfinal,
    (hmark' 2).mpr hfinal, ?_⟩
  · rw [hlabels]
    rfl
  · rw [htargets]
    rfl
  · rw [htargets]
    rfl
  · rw [Bool.eq_false_iff, Ne, hmark, hstart]
    decide
  · rw [Bool.eq_false_iff, Ne, hmark', hfinal]
    decide

end Utterance
