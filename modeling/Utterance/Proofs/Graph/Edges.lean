import Mathlib.Data.List.Nodup
import Utterance.Graph.Basic

/-!
# The edges of a graph

A graph keeps its edges in one array and, at every state, the positions of
those that leave it.  `Valid` says that the two agree.  It holds of the empty
graph, and adding states and edges keeps it; what these operations do is then
said of the look-up `edge?` alone:

> after `addEdge s t`, the edge between `s` and `t` has the new labels, and
> all other edges are as before.

`mem_edgesFrom` reads the list of the edges out of a state in the same way.
-/

namespace Utterance

namespace Graph

/-! ## Sizes, words, start and final state -/

@[simp] theorem size_addState (g : Graph) (w : Option String) :
    (g.addState w).size = g.size + 1 := by
  simp [size, addState]

@[simp] theorem size_modifyEdge (g : Graph) (s t : Nat) (f : Edge → Edge) :
    (g.modifyEdge s t f).size = g.size := by
  unfold modifyEdge
  split <;> rfl

@[simp] theorem size_addEdge (g : Graph) (s t : Nat) (i o : String) :
    (g.addEdge s t i o).size = g.size := by
  unfold addEdge
  split
  · rfl
  · simp [size]

@[simp] theorem start_addState (g : Graph) (w : Option String) :
    (g.addState w).start = g.start := rfl

@[simp] theorem start_modifyEdge (g : Graph) (s t : Nat) (f : Edge → Edge) :
    (g.modifyEdge s t f).start = g.start := by
  unfold modifyEdge
  split <;> rfl

@[simp] theorem start_addEdge (g : Graph) (s t : Nat) (i o : String) :
    (g.addEdge s t i o).start = g.start := by
  unfold addEdge
  split <;> rfl

@[simp] theorem word?_addState_self (g : Graph) (w : Option String) :
    (g.addState w).word? g.size = w := by
  simp [word?, addState, size]

theorem word?_addState_of_lt {g : Graph} {s : Nat} (hs : s < g.size) (w : Option String) :
    (g.addState w).word? s = g.word? s := by
  have hne : s ≠ g.nodes.size := Nat.ne_of_lt hs
  simp [word?, addState, Array.getElem?_push, hne]

@[simp] theorem word?_modifyEdge (g : Graph) (s t : Nat) (f : Edge → Edge) (a : Nat) :
    (g.modifyEdge s t f).word? a = g.word? a := by
  unfold modifyEdge
  split <;> rfl

@[simp] theorem word?_addEdge (g : Graph) (s t : Nat) (i o : String) (a : Nat) :
    (g.addEdge s t i o).word? a = g.word? a := by
  unfold addEdge
  split
  · rfl
  · simp only [word?, Array.getElem?_modify]
    split
    · cases g.nodes[a]? <;> rfl
    · rfl

/-! ## Valid graphs -/

/-- The positions that a graph lists at its states are those of the edges that
leave them, and no two of these lead to one state. -/
structure Valid (g : Graph) : Prop where
  listed : ∀ {s i : Nat}, i ∈ g.outOf s → ∃ e, g.edges[i]? = some e ∧ e.source = s
  single : ∀ s, ((g.edgesFrom s).map Edge.target).Nodup

theorem valid_empty : Valid {} :=
  ⟨fun h => by simp [outOf] at h, fun s => by simp [edgesFrom]⟩

/-- Validity does not depend on the words, the start and the final state. -/
theorem Valid.congr {g h : Graph} (hg : g.Valid) (hout : ∀ s, h.outOf s = g.outOf s)
    (hedges : h.edges = g.edges) : h.Valid where
  listed hi := by
    rw [hout] at hi
    rw [hedges]
    exact hg.listed hi
  single s := by
    rw [edgesFrom, hout, hedges]
    exact hg.single s

theorem edge?_eq_find? (g : Graph) (s t : Nat) :
    g.edge? s t = (g.edgesFrom s).find? (·.target == t) := by
  rw [edgesFrom, List.find?_filterMap]
  rfl

/-- The position at which an edge is found is listed at its source, and the
edge there has the source and the target that were asked for. -/
theorem Valid.of_position? {g : Graph} (hg : g.Valid) {s t i : Nat}
    (h : g.position? s t = some i) :
    ∃ e, g.edges[i]? = some e ∧ e.source = s ∧ e.target = t := by
  have hmem : i ∈ g.outOf s := List.mem_of_find?_eq_some h
  have htarget := List.find?_some h
  obtain ⟨e, he, hsource⟩ := hg.listed hmem
  refine ⟨e, he, hsource, ?_⟩
  simpa [he] using htarget

theorem Valid.of_edge? {g : Graph} (hg : g.Valid) {s t : Nat} {e : Edge}
    (h : g.edge? s t = some e) : e.source = s ∧ e.target = t := by
  obtain ⟨i, hi, hei⟩ := Option.bind_eq_some_iff.mp h
  obtain ⟨e', he', hsource, htarget⟩ := hg.of_position? hi
  rw [hei] at he'
  cases he'
  exact ⟨hsource, htarget⟩

/-- No edge leaves a state that is not there. -/
theorem edge?_of_size_le {g : Graph} {s : Nat} (hs : g.size ≤ s) (t : Nat) :
    g.edge? s t = none := by
  have hnone : g.nodes[s]? = none := Array.getElem?_eq_none hs
  simp [edge?, position?, outOf, hnone]

/-- The edges out of a state are those that can be looked up. -/
theorem Valid.mem_edgesFrom {g : Graph} (hg : g.Valid) {s : Nat} {e : Edge} :
    e ∈ g.edgesFrom s ↔ g.edge? s e.target = some e := by
  rw [edge?_eq_find?]
  refine ⟨fun hmem => ?_, List.mem_of_find?_eq_some⟩
  cases hfind : (g.edgesFrom s).find? (·.target == e.target) with
  | none =>
      have := List.find?_eq_none.mp hfind e hmem
      simp at this
  | some e' =>
      have hmem' := List.mem_of_find?_eq_some hfind
      have htarget : e'.target = e.target := by simpa using List.find?_some hfind
      exact congrArg some (List.inj_on_of_nodup_map (hg.single s) hmem' hmem htarget)

/-! ## New states -/

@[simp] theorem outOf_addState (g : Graph) (w : Option String) (s : Nat) :
    (g.addState w).outOf s = g.outOf s := by
  simp only [outOf, addState, Array.getElem?_push]
  by_cases hs : s = g.nodes.size
  · simp [hs]
  · simp [hs]

@[simp] theorem edge?_addState (g : Graph) (w : Option String) (s t : Nat) :
    (g.addState w).edge? s t = g.edge? s t := by
  rw [edge?_eq_find?, edge?_eq_find?, edgesFrom, outOf_addState]
  rfl

theorem Valid.addState {g : Graph} (hg : g.Valid) (w : Option String) :
    (g.addState w).Valid :=
  hg.congr (outOf_addState g w) rfl

/-! ## Changed edges -/

/-- A change of an edge that leaves it between the same states. -/
def Keeps (f : Edge → Edge) : Prop := ∀ e, (f e).source = e.source ∧ (f e).target = e.target

section Modify

variable {g : Graph} {i : Nat} {f : Edge → Edge}

theorem modify_target (hf : Keeps f) (j : Nat) :
    ((g.edges.modify i f)[j]?).map Edge.target = (g.edges[j]?).map Edge.target := by
  rw [Array.getElem?_modify]
  split
  · rw [Option.map_map, show Edge.target ∘ f = Edge.target from funext fun e => (hf e).2]
  · rfl

theorem position?_modify (hf : Keeps f) (s t : Nat) :
    ({ g with edges := g.edges.modify i f } : Graph).position? s t = g.position? s t := by
  unfold position?
  congr 1
  funext j
  have h := modify_target (g := g) (i := i) hf j
  cases hj : g.edges[j]? <;> cases hj' : (g.edges.modify i f)[j]? <;> rw [hj, hj'] at h <;>
    simp_all

theorem Valid.modify (hg : g.Valid) (hf : Keeps f) :
    ({ g with edges := g.edges.modify i f } : Graph).Valid where
  listed {s j} hj := by
    obtain ⟨e, he, hsource⟩ := hg.listed hj
    rw [Array.getElem?_modify, he]
    split
    · exact ⟨f e, rfl, by rw [(hf e).1, hsource]⟩
    · exact ⟨e, rfl, hsource⟩
  single s := by
    have hmap : (({ g with edges := g.edges.modify i f } : Graph).edgesFrom s).map Edge.target
        = (g.edgesFrom s).map Edge.target := by
      rw [edgesFrom, edgesFrom, List.map_filterMap, List.map_filterMap]
      exact List.filterMap_congr fun j _ => modify_target hf j
    rw [hmap]
    exact hg.single s

end Modify

theorem Valid.modifyEdge {g : Graph} (hg : g.Valid) {f : Edge → Edge} (hf : Keeps f) (s t : Nat) :
    (g.modifyEdge s t f).Valid := by
  unfold Graph.modifyEdge
  split
  · exact hg.modify hf
  · exact hg

theorem Valid.edge?_modifyEdge {g : Graph} (hg : g.Valid) {f : Edge → Edge} (hf : Keeps f)
    (s t a b : Nat) :
    (g.modifyEdge s t f).edge? a b
      = if a = s ∧ b = t then (g.edge? s t).map f else g.edge? a b := by
  unfold Graph.modifyEdge
  cases hpos : g.position? s t with
  | none =>
      have hst : g.edge? s t = none := by rw [edge?, hpos, Option.bind_none]
      rw [hst, Option.map_none]
      by_cases h : a = s ∧ b = t
      · rw [if_pos h, h.1, h.2]
        exact hst
      · rw [if_neg h]
  | some i =>
      obtain ⟨e, he, hsource, htarget⟩ := hg.of_position? hpos
      simp only [edge?, position?_modify hf, Array.getElem?_modify]
      by_cases h : a = s ∧ b = t
      · rw [if_pos h, h.1, h.2, hpos, Option.bind_some, Option.bind_some, if_pos rfl]
      · rw [if_neg h]
        cases hab : g.position? a b with
        | none => rfl
        | some j =>
            rw [Option.bind_some, Option.bind_some, if_neg]
            rintro rfl
            obtain ⟨e', he', hsource', htarget'⟩ := hg.of_position? hab
            rw [he] at he'
            cases he'
            exact h ⟨hsource'.symm.trans hsource, htarget'.symm.trans htarget⟩

/-! ## New edges -/

/-- The edge with the labels that it gets when it is added. -/
def relabelled (input output : String) (e : Edge) : Edge := { e with input, output }

theorem keeps_relabelled (i o : String) : Keeps (relabelled i o) := fun _ => ⟨rfl, rfl⟩

theorem addEdge_of_some {g : Graph} {s t k : Nat} (h : g.position? s t = some k)
    (i o : String) : g.addEdge s t i o = g.modifyEdge s t (relabelled i o) := by
  simp only [addEdge, modifyEdge, h]
  rfl

section Push

variable {g : Graph} {s t : Nat} {i o : String}

theorem outOf_addEdge_of_none (h : g.position? s t = none) (hs : s < g.size) (a : Nat) :
    (g.addEdge s t i o).outOf a
      = if a = s then g.outOf s ++ [g.edges.size] else g.outOf a := by
  simp only [addEdge, h, outOf, Array.getElem?_modify]
  by_cases ha : a = s
  · subst ha
    have hnode : g.nodes[a]? = some g.nodes[a] := Array.getElem?_eq_getElem hs
    simp [hnode]
  · rw [if_neg ha, if_neg (Ne.symm ha)]

theorem edges_addEdge_of_none (h : g.position? s t = none) :
    (g.addEdge s t i o).edges = g.edges.push ⟨s, t, i, o, none, none⟩ := by
  simp only [addEdge, h]

theorem edgesFrom_addEdge_of_none (hg : g.Valid) (h : g.position? s t = none) (hs : s < g.size)
    (a : Nat) :
    (g.addEdge s t i o).edgesFrom a
      = if a = s then g.edgesFrom s ++ [⟨s, t, i, o, none, none⟩] else g.edgesFrom a := by
  have hold : ∀ b, (g.outOf b).filterMap ((g.edges.push ⟨s, t, i, o, none, none⟩)[·]?)
      = g.edgesFrom b := fun b => by
    refine List.filterMap_congr fun j hj => ?_
    obtain ⟨e, he, -⟩ := hg.listed hj
    have hlt : j < g.edges.size := (Array.getElem?_eq_some_iff.mp he).1
    rw [Array.getElem?_push, if_neg (Nat.ne_of_lt hlt)]
  rw [edgesFrom, edges_addEdge_of_none h, outOf_addEdge_of_none h hs]
  split
  · rw [List.filterMap_append, hold]
    simp
  · exact hold a

end Push

theorem Valid.addEdge {g : Graph} (hg : g.Valid) {s : Nat} (hs : s < g.size) (t : Nat)
    (i o : String) : (g.addEdge s t i o).Valid := by
  cases hpos : g.position? s t with
  | some k =>
      rw [addEdge_of_some hpos]
      exact hg.modifyEdge (keeps_relabelled i o) s t
  | none =>
      constructor
      case listed =>
        intro a j hj
        rw [outOf_addEdge_of_none hpos hs] at hj
        rw [edges_addEdge_of_none hpos]
        have hold : ∀ b, j ∈ g.outOf b → ∃ e,
            (g.edges.push ⟨s, t, i, o, none, none⟩)[j]? = some e ∧ e.source = b := fun b hb => by
          obtain ⟨e, he, hsource⟩ := hg.listed hb
          have hlt : j < g.edges.size := (Array.getElem?_eq_some_iff.mp he).1
          exact ⟨e, by rw [Array.getElem?_push, if_neg (Nat.ne_of_lt hlt), he], hsource⟩
        by_cases ha : a = s
        · rw [if_pos ha, List.mem_append, List.mem_singleton] at hj
          rcases hj with hj | rfl
          · exact ha ▸ hold s hj
          · exact ⟨⟨s, t, i, o, none, none⟩, Array.getElem?_push_size, ha.symm⟩
        · rw [if_neg ha] at hj
          exact hold a hj
      case single =>
        intro a
        rw [edgesFrom_addEdge_of_none hg hpos hs]
        split
        · have hnew : t ∉ (g.edgesFrom s).map Edge.target := fun hmem => by
            obtain ⟨e, he, htarget⟩ := List.mem_map.mp hmem
            have hfound := hg.mem_edgesFrom.mp he
            rw [htarget, edge?, hpos] at hfound
            cases hfound
          rw [List.map_append, List.nodup_append]
          refine ⟨hg.single s, by simp, ?_⟩
          intro x hx y hy hxy
          obtain rfl : y = t := by simpa using hy
          exact hnew (hxy ▸ hx)
        · exact hg.single a

/-- What is between two states after an edge has been added: the labels are
the new ones there, and all else is as before. -/
theorem Valid.edge?_addEdge {g : Graph} (hg : g.Valid) {s : Nat} (hs : s < g.size) (t : Nat)
    (i o : String) (a b : Nat) :
    (g.addEdge s t i o).edge? a b
      = if a = s ∧ b = t then
          some (relabelled i o ((g.edge? s t).getD { source := s, target := t }))
        else g.edge? a b := by
  cases hpos : g.position? s t with
  | some k =>
      obtain ⟨e, he, -⟩ := hg.of_position? hpos
      have hst : g.edge? s t = some e := by rw [edge?, hpos, Option.bind_some, he]
      rw [addEdge_of_some hpos, hg.edge?_modifyEdge (keeps_relabelled i o), hst]
      rfl
  | none =>
      have hst : g.edge? s t = none := by rw [edge?, hpos, Option.bind_none]
      rw [edge?_eq_find?, edgesFrom_addEdge_of_none hg hpos hs]
      by_cases ha : a = s
      · subst ha
        rw [if_pos rfl, List.find?_append, ← edge?_eq_find?]
        by_cases hb : b = t
        · subst hb
          rw [hst, if_pos ⟨rfl, rfl⟩]
          simp [relabelled]
        · rw [if_neg (fun h => hb h.2)]
          have hne : (t == b) = false := by simpa using Ne.symm hb
          simp [hne]
      · rw [if_neg ha, if_neg (fun h => ha h.1), ← edge?_eq_find?]

end Graph

end Utterance
