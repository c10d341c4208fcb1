import Utterance.Proofs.Graph.History
import Utterance.Proofs.Json.RoundTrip

/-!
# Storing a graph and reading it back

A consistent graph is known by its states and its edges (`Consistent.ext`).  Reading
its data back adds the words and then the edges one by one to a graph that is
consistent all the time (`exists_addEdges`), and as no two edges join the same states
each of them is appended (`Edge.foldl_put_of_nodup`).  So the graph that comes out has
the states and the edges of the one that was stored, and is this one
(`Consistent.ofData_toData`).

As text the data reads back if its numbers do (`GraphData.readsBack_toJson`).  In a
graph that calls have made the weights and counts are those that some call has set
(`History.decorations`), so it is enough that these are read back
(`History.readFirst?_toJson`).
-/

namespace Utterance

/-- Puts an edge in the place of the one that joins the same states, or at the end. -/
def Edge.put (l : List Edge) (e : Edge) : List Edge :=
  if e.ends ∈ l.map Edge.ends then l.map fun old => if old.ends = e.ends then e else old
  else l ++ [e]

/-- Edges that all join different states are appended in turn. -/
theorem Edge.foldl_put_of_nodup {es l : List Edge}
    (h : ((es ++ l).map Edge.ends).Nodup) : l.foldl Edge.put es = es ++ l := by
  induction l generalizing es with
  | nil => exact (List.append_nil es).symm
  | cons e l ih =>
      have hnew : e.ends ∉ es.map Edge.ends := by
        rw [List.map_append, List.nodup_append] at h
        exact fun hmem => h.2.2 _ hmem _ List.mem_cons_self rfl
      rw [List.append_cons] at h
      rw [List.foldl_cons, Edge.put, if_neg hnew, ih h, List.append_cons es e l]

namespace Graph

variable {g h k : Graph}

/-- The states are the same, with their words, and so are the start and the final
state. -/
structure SameStates (g h : Graph) : Prop where
  size : h.size = g.size
  word : ∀ s, h.word? s = g.word? s
  start : h.start = g.start
  final : h.final = g.final

theorem SameStates.refl (g : Graph) : g.SameStates g := ⟨rfl, fun _ => rfl, rfl, rfl⟩

theorem SameStates.trans (hg : g.SameStates h) (hh : h.SameStates k) : g.SameStates k :=
  ⟨hh.size.trans hg.size, fun s => (hh.word s).trans (hg.word s), hh.start.trans hg.start,
    hh.final.trans hg.final⟩

theorem sameStates_addEdge (g : Graph) (s t : Nat) (i o : String) :
    g.SameStates (g.addEdge s t i o) :=
  ⟨size_addEdge .., word?_addEdge g s t i o, start_addEdge .., final_addEdge ..⟩

theorem sameStates_modifyEdge (g : Graph) (s t : Nat) (f : Edge → Edge) :
    g.SameStates (g.modifyEdge s t f) :=
  ⟨size_modifyEdge .., word?_modifyEdge g s t f, start_modifyEdge .., final_modifyEdge ..⟩

/-- Consistent graphs with the same states and edges are the same. -/
theorem Consistent.ext (hg : g.Consistent) (hh : h.Consistent) (hstates : g.SameStates h)
    (hedges : h.edges = g.edges) : h = g := by
  have hnodes : h.nodes = g.nodes := by
    refine Array.ext hstates.size fun s hs hs' => ?_
    have hword : h.nodes[s].word = g.nodes[s].word := by
      have hw := hstates.word s
      simpa [word?, hs, hs'] using hw
    have hout : h.nodes[s].out = g.nodes[s].out := by
      have hl : h.outOf s = g.outOf s := by
        rw [hh.listed s hs, hg.listed s hs', leaving, leaving, hedges]
      refine Array.toList_inj.mp ?_
      simpa [outOf, hs, hs'] using hl
    cases hn : h.nodes[s]
    cases hm : g.nodes[s]
    rw [hn, hm] at hword hout
    cases hword
    cases hout
    rfl
  have hstart := hstates.start
  have hfinal := hstates.final
  cases h
  cases g
  cases hnodes
  cases hedges
  cases hstart
  cases hfinal
  rfl

/-! ## The nodes -/

/-- A graph that has states with these words, and nothing else. -/
def bare (words : List (Option String)) : Graph :=
  { nodes := (words.map fun word => { word }).toArray }

@[simp] theorem size_bare (words : List (Option String)) : (bare words).size = words.length := by
  simp [bare, size]

theorem word?_bare (words : List (Option String)) (s : Nat) :
    (bare words).word? s = words[s]?.join := by
  cases hs : words[s]? <;> simp [bare, word?, hs]

theorem consistent_bare (words : List (Option String)) : (bare words).Consistent where
  listed s hs := by
    have hlt : s < words.length := by simpa using hs
    simp [bare, outOf, leaving, hlt]
  distinct := List.nodup_nil
  inside _ he := (List.not_mem_nil he).elim
  start_lt _ hs := by cases hs
  final_lt _ hs := by cases hs

/-- Nodes that are numbered on from the size of the graph are all added. -/
theorem addNodes_bare : ∀ {l : List NodeData} {words : List (Option String)},
    l.map NodeData.id = List.range' words.length l.length →
      GraphData.addNodes (bare words) l = .ok (bare (words ++ l.map NodeData.word))
  | [], words, _ => by rw [GraphData.addNodes, List.map_nil, List.append_nil]
  | n :: rest, words, hids => by
      rw [List.map_cons, List.length_cons, List.range'_succ] at hids
      obtain ⟨hid, hrest⟩ := List.cons.inj hids
      have hadd : (bare words).addState n.word = bare (words ++ [n.word]) := by
        simp [bare, addState]
      have hlength : words.length + 1 = (words ++ [n.word]).length := by simp
      rw [hlength] at hrest
      rw [GraphData.addNodes, if_pos (by rw [hid, size_bare, beq_self_eq_true]), hadd,
        addNodes_bare hrest, List.append_assoc]
      rfl

/-! ## The edges -/

/-- An edge that is read replaces the one that joins the same states. -/
theorem Consistent.edges_put (hg : g.Consistent) {e : Edge} (hs : e.source < g.size)
    (ht : e.target < g.size) :
    ((g.addEdge e.source e.target e.input e.output).modifyEdge e.source e.target
        (Edge.decorated e.weight e.count)).edges.toList = Edge.put g.edges.toList e := by
  have hends : (e.source, e.target) = e.ends := rfl
  rw [(hg.addEdge hs ht _ _).edges_modifyEdge, hg.edges_addEdge, Edge.put, hends]
  split
  · rw [List.map_map]
    refine List.map_congr_left fun old _ => ?_
    by_cases hold : old.ends = e.ends
    · obtain ⟨hsource, htarget⟩ := Prod.mk.inj hold
      have hkept : (relabelled e.input e.output old).ends = e.ends := hold
      rw [Function.comp_apply, if_pos hold, if_pos hold, if_pos hkept, Edge.decorated, relabelled,
        hsource, htarget]
    · rw [Function.comp_apply, if_neg hold, if_neg hold, if_neg hold]
  next hnew =>
    rw [List.map_append]
    refine congrArg₂ _ ?_ ?_
    · refine (List.map_congr_left fun old hmem => if_neg fun hold => hnew ?_).trans (List.map_id _)
      exact List.mem_map.mpr ⟨old, hmem, hold⟩
    · simp [Edge.ends, Edge.decorated]

/-- Edges between states of the graph are read one after the other. -/
theorem exists_addEdges : ∀ {l : List Edge} {g : Graph}, g.Consistent →
    (∀ e ∈ l, e.source < g.size ∧ e.target < g.size) →
      ∃ h, GraphData.addEdges g l = .ok h ∧ h.Consistent ∧ g.SameStates h ∧
        h.edges.toList = l.foldl Edge.put g.edges.toList
  | [], g, hg, _ => ⟨g, rfl, hg, .refl g, rfl⟩
  | e :: rest, g, hg, hin => by
      obtain ⟨hs, ht⟩ := hin e List.mem_cons_self
      have hnext := ((hg.addEdge hs ht e.input e.output).modifyEdge
        (keeps_decorated e.weight e.count) e.source e.target)
      have hstates := (sameStates_addEdge g e.source e.target e.input e.output).trans
        (sameStates_modifyEdge _ e.source e.target (Edge.decorated e.weight e.count))
      obtain ⟨h, hh, hcons, hsame, hall⟩ := exists_addEdges (l := rest) hnext
        (fun e' he' => by rw [hstates.size]; exact hin e' (List.mem_cons_of_mem _ he'))
      refine ⟨h, ?_, hcons, hstates.trans hsame, ?_⟩
      · rw [GraphData.addEdges, if_pos (by simp [hs, ht])]
        exact hh
      · rw [hall, hg.edges_put hs ht, List.foldl_cons]

/-! ## The whole graph -/

theorem pairwise_nodes_toData (g : Graph) :
    g.toData.nodes.Pairwise fun a b => decide (a.id ≤ b.id) = true := by
  rw [toData, List.pairwise_map]
  refine List.pairwise_lt_range.imp fun hlt => decide_eq_true ?_
  exact Nat.le_of_lt hlt

/-- Reading back the data of a consistent graph that has a start and a final state
gives this graph. -/
theorem Consistent.ofData_toData (hg : g.Consistent) {s f : Nat} (hs : g.start = some s)
    (hf : g.final = some f) : ofData g.toData = .ok g := by
  have hsorted : g.toData.nodes.mergeSort (fun a b => a.id ≤ b.id) = g.toData.nodes :=
    List.mergeSort_of_pairwise g.pairwise_nodes_toData
  have hids : g.toData.nodes.map NodeData.id = List.range' 0 g.toData.nodes.length := by
    simp [toData, nodeData, Function.comp_def, List.range_eq_range']
  have hnodes : GraphData.addNodes {} g.toData.nodes =
      .ok (bare (g.toData.nodes.map NodeData.word)) := by
    have hempty : GraphData.addNodes (bare []) g.toData.nodes =
        .ok (bare ([] ++ g.toData.nodes.map NodeData.word)) := addNodes_bare hids
    exact hempty
  have hstarts : g.toData.nodes.filter NodeData.isStart = [g.nodeData s] := by
    rw [hg.starts_eq, hs]
    rfl
  have hfinals : g.toData.nodes.filter NodeData.isFinal = [g.nodeData f] := by
    rw [hg.finals_eq, hf]
    rfl
  have hsize : (bare (g.toData.nodes.map NodeData.word)).size = g.size := by simp [toData]
  have hbare : (((bare (g.toData.nodes.map NodeData.word)).setStart s).setFinal f).Consistent :=
    ((consistent_bare _).setStart (hsize ▸ hg.start_lt s hs)).setFinal (hsize ▸ hg.final_lt f hf)
  have hbelow : ∀ e ∈ g.edges.toList, e.source < (bare (g.toData.nodes.map NodeData.word)).size ∧
      e.target < (bare (g.toData.nodes.map NodeData.word)).size := hsize ▸ hg.inside
  obtain ⟨h, hh, hcons, hsame, hedges⟩ := exists_addEdges hbare hbelow
  have hstates : g.SameStates h := by
    refine ⟨hsame.size.trans hsize, fun a => (hsame.word a).trans ?_, hsame.start.trans hs.symm,
      hsame.final.trans hf.symm⟩
    change (bare (g.toData.nodes.map NodeData.word)).word? a = g.word? a
    rw [word?_bare]
    by_cases ha : a < g.size
    · simp [toData, nodeData, ha]
    · have hnone : g.word? a = none := by
        rw [word?, Array.getElem?_eq_none (Nat.le_of_not_lt ha), Option.bind_none]
      simp [toData, ha, hnone]
  have hlisted : g.edges.toList.foldl Edge.put [] = g.edges.toList := by
    rw [Edge.foldl_put_of_nodup (by exact hg.distinct), List.nil_append]
  obtain rfl : h = g := hg.ext hcons hstates (Array.toList_inj.mp (hedges.trans hlisted))
  simp only [ofData, hsorted, hnodes, hstarts, hfinals, bind, Except.bind]
  exact hh

end Graph

/-! ## As JSON -/

theorem asNat?_natCast (n : Nat) : Json.asNat? (.int (n : Int)) = some n := by simp [Json.asNat?]

theorem NodeData.ofJson?_toJson (n : NodeData) : ofJson? n.toJson = some n := by
  obtain ⟨id, start, final, word⟩ := n
  cases start <;> cases final <;> cases word <;>
    simp [toJson, ofJson?, Json.flag, Json.optionalMember, Json.fields?, asNat?_natCast,
      Json.orDefault, Json.optional, Json.asBool?, Json.asText?, List.lookup_cons]

/-- An edge is read back if its weight is a finite number. -/
theorem Edge.ofJson?_toJson {e : Edge} (hweight : ∀ x, e.weight = some x → x.isFinite = true) :
    ofJson? e.toJson = some e := by
  obtain ⟨source, target, input, output, weight, count⟩ := e
  cases weight with
  | none =>
      cases count <;>
        simp [toJson, ofJson?, Json.optionalMember, Json.fields?, asNat?_natCast, Json.orDefault,
          Json.optional, Json.asText?, List.lookup_cons]
  | some x =>
      have hread : Json.asFloat? (.float x) = some x := if_pos (hweight x rfl)
      cases count <;>
        simp [toJson, ofJson?, Json.optionalMember, Json.fields?, asNat?_natCast, Json.orDefault,
          Json.optional, Json.asText?, List.lookup_cons, hread]

theorem mapM_ofJson? {α : Type} {toJson : α → Json} {ofJson? : Json → Option α} :
    ∀ {l : List α}, (∀ a ∈ l, ofJson? (toJson a) = some a) → (l.map toJson).mapM ofJson? = some l
  | [], _ => rfl
  | a :: l, h => by
      obtain ⟨ha, hl⟩ := List.forall_mem_cons.mp h
      rw [List.map_cons, List.mapM_cons, ha, mapM_ofJson? hl]
      rfl

theorem GraphData.ofJson?_toJson {d : GraphData}
    (hweights : ∀ e ∈ d.edges, ∀ x, e.weight = some x → x.isFinite = true) : ofJson? d.toJson = some d := by
  have hnodes := mapM_ofJson? (l := d.nodes) fun n _ => n.ofJson?_toJson
  have hedges := mapM_ofJson? (l := d.edges) fun e he => Edge.ofJson?_toJson (hweights e he)
  simp [toJson, ofJson?, Json.fields?, Json.asArray?, List.lookup_cons, hnodes, hedges]

theorem readsBack_flag (key : String) (b : Bool) : ∀ m ∈ Json.flag key b, Json.ReadsBack m.2 := by
  cases b with
  | false => exact fun m hm => (List.not_mem_nil hm).elim
  | true => exact List.forall_mem_singleton.mpr (Json.readsBack_bool true)

theorem readsBack_optionalMember {α : Type} (key : String) {f : α → Json} {o : Option α}
    (ho : ∀ a, o = some a → Json.ReadsBack (f a)) :
    ∀ m ∈ Json.optionalMember key f o, Json.ReadsBack m.2 := by
  cases o with
  | none => exact fun m hm => (List.not_mem_nil hm).elim
  | some a => exact List.forall_mem_singleton.mpr (ho a rfl)

theorem NodeData.readsBack_toJson {n : NodeData} (hid : n.id ≤ Decimal.maxNat64) :
    Json.ReadsBack n.toJson := by
  refine Json.readsBack_object ?_
  simp only [List.forall_mem_append, List.forall_mem_singleton]
  exact ⟨⟨⟨Json.readsBack_int hid, readsBack_flag _ _⟩, readsBack_flag _ _⟩,
    readsBack_optionalMember _ fun word _ => Json.readsBack_text word⟩

theorem Edge.readsBack_toJson {e : Edge} (hsource : e.source ≤ Decimal.maxNat64)
    (htarget : e.target ≤ Decimal.maxNat64)
    (hweight : ∀ x, e.weight = some x → Json.ReadsBack (.float x))
    (hcount : ∀ c, e.count = some c → c ≤ Decimal.maxNat64) : Json.ReadsBack e.toJson := by
  refine Json.readsBack_object ?_
  simp only [List.forall_mem_append, List.forall_mem_cons]
  exact ⟨⟨⟨Json.readsBack_int hsource, Json.readsBack_int htarget, Json.readsBack_text _,
    Json.readsBack_text _, fun _ hm => (List.not_mem_nil hm).elim⟩,
    readsBack_optionalMember _ hweight⟩,
    readsBack_optionalMember _ fun c hc => Json.readsBack_int (hcount c hc)⟩

/-- Data reads back from its text if its nodes and edges do. -/
theorem GraphData.readsBack_toJson {d : GraphData} (hnodes : ∀ n ∈ d.nodes, Json.ReadsBack n.toJson)
    (hedges : ∀ e ∈ d.edges, Json.ReadsBack e.toJson) : Json.ReadsBack d.toJson := by
  refine Json.readsBack_object (List.forall_mem_cons.mpr ⟨?_, List.forall_mem_singleton.mpr ?_⟩)
  · exact Json.readsBack_array (List.forall_mem_map.mpr hnodes)
  · exact Json.readsBack_array (List.forall_mem_map.mpr hedges)

namespace Graph

variable {g : Graph} {calls : List GraphCall}

/-- Weights and counts are those that some call has set. -/
theorem History.decorations (hg : History calls g) {e : Edge} (he : e ∈ g.edges.toList) :
    (e.weight = none ∧ e.count = none) ∨ ∃ s t, .decorate s t e.weight e.count ∈ calls := by
  induction hg generalizing e with
  | empty => exact (List.not_mem_nil he).elim
  | @call calls g c hg hc ih =>
      have hold : ∀ {e : Edge}, e ∈ g.edges.toList → (e.weight = none ∧ e.count = none) ∨
          ∃ s t, .decorate s t e.weight e.count ∈ calls ++ [c] := fun he =>
        (ih he).imp_right fun ⟨s, t, hmem⟩ => ⟨s, t, List.mem_append_left _ hmem⟩
      cases c with
      | addState word => exact hold he
      | setStart s => exact hold he
      | setFinal s => exact hold he
      | addEdge s t i o =>
          rw [GraphCall.apply, hg.consistent.edges_addEdge] at he
          split at he
          · obtain ⟨e', he', rfl⟩ := List.mem_map.mp he
            have hkept := hold he'
            split
            · exact hkept
            · exact hkept
          · rcases List.mem_append.mp he with he | he
            · exact hold he
            · obtain rfl := List.mem_singleton.mp he
              exact .inl ⟨rfl, rfl⟩
      | decorate s t weight count =>
          rw [GraphCall.apply, hg.consistent.edges_modifyEdge] at he
          obtain ⟨e', he', rfl⟩ := List.mem_map.mp he
          split
          · exact .inr ⟨s, t, List.mem_append_right _ (List.mem_singleton_self _)⟩
          · exact hold he'

/-- The data of a graph that calls have made is read back from its text if the weights that
the calls have set are finite and are read back. -/
theorem History.readFirst?_toJson (hg : History calls g) (hsize : g.size ≤ Decimal.maxNat64)
    (hweights : ∀ a b x c, .decorate a b (some x) c ∈ calls →
      x.isFinite = true ∧ Json.ReadsBack (.float x))
    (hcounts : ∀ a b w c, .decorate a b w (some c) ∈ calls → c ≤ Decimal.maxNat64) :
    GraphData.ofJson? g.toJson = some g.toData ∧
      Json.readFirst? g.toJson.render = some (g.toJson, []) := by
  have hweight : ∀ e ∈ g.toData.edges, ∀ x, e.weight = some x →
      x.isFinite = true ∧ Json.ReadsBack (.float x) := fun e he x hx => by
    rcases hg.decorations he with ⟨hnone, -⟩ | ⟨a, b, hmem⟩
    · exact absurd (hnone.symm.trans hx) (Option.some_ne_none x).symm
    · exact hweights a b x e.count (hx ▸ hmem)
  have hcount : ∀ e ∈ g.toData.edges, ∀ c, e.count = some c → c ≤ Decimal.maxNat64 :=
    fun e he c hc => by
      rcases hg.decorations he with ⟨-, hnone⟩ | ⟨a, b, hmem⟩
      · exact absurd (hnone.symm.trans hc) (Option.some_ne_none c).symm
      · exact hcounts a b e.weight c (hc ▸ hmem)
  refine ⟨GraphData.ofJson?_toJson fun e he x hx => (hweight e he x hx).1, ?_⟩
  refine (GraphData.readsBack_toJson ?_ ?_).readFirst?
  · intro n hn
    obtain ⟨id, hid, rfl⟩ := List.mem_map.mp hn
    exact NodeData.readsBack_toJson ((Nat.le_of_lt (List.mem_range.mp hid)).trans hsize)
  · intro e he
    obtain ⟨hsource, htarget⟩ := hg.consistent.inside e he
    exact Edge.readsBack_toJson (hsource.le.trans hsize) (htarget.le.trans hsize)
      (fun x hx => (hweight e he x hx).2) (hcount e he)

end Graph

end Utterance
