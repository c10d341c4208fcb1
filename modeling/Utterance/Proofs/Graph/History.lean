import Mathlib.Data.List.Nodup
import Utterance.Graph.Data
import Utterance.Proofs.Graph.Edges

/-!
# The history of a graph

A graph keeps what it is told in several places: the labels in one array, at
every state the positions of the edges that leave it, and the numbers of the
start and the final state.  `Consistent` says how these fit together.  It holds
of every graph that calls have made of the empty one (`History.consistent`), and
in such a graph the two operations on edges act on the list of edges alone
(`Consistent.edges_addEdge`, `Consistent.edges_modifyEdge`).

So the calls themselves tell what the graph holds: between two states the labels
of the last edge added there (`History.labels_eq`), and out of a state the edges in
the order in which their targets first came up (`History.targets_eq`).
-/

namespace Utterance

/-- A call that changes a graph: a new state, perhaps with the word heard on the
way into it, a new start or final state, an edge, or the weight and the count of
an edge that is there. -/
inductive GraphCall where
  | addState (word : Option String)
  | setStart (s : Nat)
  | setFinal (s : Nat)
  | addEdge (source target : Nat) (input output : String)
  | decorate (source target : Nat) (weight : Option Float) (count : Option Nat)

/-- The states that an edge joins. -/
def Edge.ends (e : Edge) : Nat × Nat := (e.source, e.target)

/-- What an edge hears and says. -/
def Edge.labels (e : Edge) : String × String := (e.input, e.output)

/-- The edge with that weight and that count. -/
def Edge.decorated (weight : Option Float) (count : Option Nat) (e : Edge) : Edge :=
  { e with weight, count }

namespace GraphCall

/-- What the call makes of a graph. -/
def apply (g : Graph) : GraphCall → Graph
  | addState word => g.addState word
  | setStart s => g.setStart s
  | setFinal s => g.setFinal s
  | addEdge s t input output => g.addEdge s t input output
  | decorate s t weight count => g.modifyEdge s t (Edge.decorated weight count)

/-- The states that the call names are there. -/
def Fits (g : Graph) : GraphCall → Prop
  | addState _ => True
  | setStart s => s < g.size
  | setFinal s => s < g.size
  | addEdge s t _ _ => s < g.size ∧ t < g.size
  | decorate _ _ _ _ => True

instance (g : Graph) : (c : GraphCall) → Decidable (c.Fits g)
  | addState _ => isTrue trivial
  | setStart s => inferInstanceAs (Decidable (s < g.size))
  | setFinal s => inferInstanceAs (Decidable (s < g.size))
  | addEdge s t _ _ => inferInstanceAs (Decidable (s < g.size ∧ t < g.size))
  | decorate _ _ _ _ => isTrue trivial

/-- Each of the calls names states that are there when it is made. -/
def AllFit (g : Graph) : List GraphCall → Prop
  | [] => True
  | c :: calls => c.Fits g ∧ AllFit (c.apply g) calls

instance decidableAllFit (g : Graph) : (calls : List GraphCall) → Decidable (AllFit g calls)
  | [] => isTrue trivial
  | c :: calls =>
    have := decidableAllFit (c.apply g) calls
    inferInstanceAs (Decidable (c.Fits g ∧ AllFit (c.apply g) calls))

/-- The state that the call makes the start. -/
def start? : GraphCall → Option Nat
  | setStart s => some s
  | _ => none

/-- The state that the call makes the final one. -/
def final? : GraphCall → Option Nat
  | setFinal s => some s
  | _ => none

/-- The state to which the call adds an edge from `s`. -/
def targetFrom? (s : Nat) : GraphCall → Option Nat
  | addEdge source target _ _ => if source = s then some target else none
  | _ => none

/-- The labels that the call gives to the edge between `s` and `t`. -/
def labelsFor? (s t : Nat) : GraphCall → Option (String × String)
  | addEdge source target input output =>
    if source = s ∧ target = t then some (input, output) else none
  | _ => none

end GraphCall

namespace Graph

/-- The graph is what the calls, one after the other, make of the empty graph. -/
inductive History : List GraphCall → Graph → Prop where
  | empty : History [] {}
  | call {calls : List GraphCall} {g : Graph} {c : GraphCall} :
      History calls g → c.Fits g → History (calls ++ [c]) (c.apply g)

theorem History.calls {before calls : List GraphCall} {g : Graph} (hg : History before g)
    (hcalls : GraphCall.AllFit g calls) :
    History (before ++ calls) (calls.foldl GraphCall.apply g) := by
  induction calls generalizing before g with
  | nil => rwa [List.append_nil]
  | cons c calls ih =>
      rw [List.append_cons]
      exact ih (hg.call hcalls.1) hcalls.2

/-- The positions of the edges with source `s`, in ascending order. -/
def leaving (g : Graph) (s : Nat) : List Nat :=
  (List.range g.edges.size).filter fun i => (g.edges[i]?).any (·.source == s)

/-- What is kept in several places agrees: every state lists the edges that leave
it, no two edges join the same states, and all states that are named are there. -/
structure Consistent (g : Graph) : Prop where
  listed : ∀ s < g.size, g.outOf s = g.leaving s
  distinct : (g.edges.toList.map Edge.ends).Nodup
  inside : ∀ e ∈ g.edges.toList, e.source < g.size ∧ e.target < g.size
  start_lt : ∀ s, g.start = some s → s < g.size
  final_lt : ∀ s, g.final = some s → s < g.size

variable {g h : Graph} {s t : Nat}

/-! ## What consistency says of the edges -/

theorem outOf_of_size_le (hs : g.size ≤ s) : g.outOf s = [] := by
  have hnone : g.nodes[s]? = none := Array.getElem?_eq_none hs
  rw [outOf, hnone]

theorem of_mem_leaving {i : Nat} (hi : i ∈ g.leaving s) :
    ∃ e, g.edges[i]? = some e ∧ e.source = s := by
  have hany := (List.mem_filter.mp hi).2
  cases he : g.edges[i]? with
  | none => simp [he] at hany
  | some e => exact ⟨e, rfl, by simpa [he] using hany⟩

theorem filterMap_leaving (g : Graph) (s : Nat) :
    (g.leaving s).filterMap (g.edges[·]?) = g.edges.toList.filter (·.source == s) := by
  have hall : (List.range g.edges.size).map (g.edges[·]?) = g.edges.toList.map some := by
    refine List.ext_getElem (by simp) fun i hi _ => ?_
    have hlt : i < g.edges.size := by simpa using hi
    simp [hlt]
  have hpick : ∀ e : Option Edge,
      (if e.any (·.source == s) then e else none) = e.filter (·.source == s) := by
    rintro (_ | e) <;> rfl
  calc (g.leaving s).filterMap (g.edges[·]?)
      = ((List.range g.edges.size).map (g.edges[·]?)).filterMap
          (Option.filter (·.source == s)) := by
        rw [leaving, List.filterMap_filter, List.filterMap_map]
        exact List.filterMap_congr fun i _ => hpick _
    _ = g.edges.toList.filter (·.source == s) := by
        rw [hall, List.filterMap_map, ← List.filterMap_eq_filter]
        refine List.filterMap_congr fun e _ => ?_
        simp [Option.filter, Option.guard]

namespace Consistent

/-- The edges out of a state are those with that source, as they stand among all
edges. -/
theorem edgesFrom_eq (hg : g.Consistent) (s : Nat) :
    g.edgesFrom s = g.edges.toList.filter (·.source == s) := by
  by_cases hs : s < g.size
  · rw [edgesFrom, hg.listed s hs, filterMap_leaving]
  · have hnone : g.edges.toList.filter (·.source == s) = [] :=
      List.filter_eq_nil_iff.mpr fun e he hsource =>
        hs (eq_of_beq hsource ▸ (hg.inside e he).1)
    rw [edgesFrom, outOf_of_size_le (Nat.le_of_not_lt hs), hnone, List.filterMap_nil]

theorem target_lt (hg : g.Consistent) {e : Edge} (he : e ∈ g.edgesFrom s) : e.target < g.size := by
  rw [hg.edgesFrom_eq] at he
  exact (hg.inside e (List.mem_filter.mp he).1).2

theorem valid (hg : g.Consistent) : g.Valid where
  listed {s i} hi := by
    by_cases hs : s < g.size
    · rw [hg.listed s hs] at hi
      exact of_mem_leaving hi
    · rw [outOf_of_size_le (Nat.le_of_not_lt hs)] at hi
      exact (List.not_mem_nil hi).elim
  single s := by
    rw [hg.edgesFrom_eq]
    have hends : ((g.edges.toList.filter (·.source == s)).map Edge.ends).Nodup :=
      hg.distinct.sublist (List.filter_sublist.map _)
    refine List.Nodup.map_on ?_ hends.of_map
    intro e he f hf htarget
    have hsource : e.source = f.source :=
      (eq_of_beq (List.mem_filter.mp he).2).trans (eq_of_beq (List.mem_filter.mp hf).2).symm
    exact List.inj_on_of_nodup_map hends he hf (Prod.ext hsource htarget)

/-- The edge between two states is the one that joins them. -/
theorem edge?_eq_some_iff (hg : g.Consistent) {e : Edge} :
    g.edge? s t = some e ↔ e ∈ g.edges.toList ∧ e.ends = (s, t) := by
  constructor
  · intro he
    obtain ⟨rfl, rfl⟩ := hg.valid.of_edge? he
    have hmem := hg.valid.mem_edgesFrom.mpr he
    rw [hg.edgesFrom_eq] at hmem
    exact ⟨(List.mem_filter.mp hmem).1, rfl⟩
  · rintro ⟨he, hends⟩
    obtain ⟨rfl, rfl⟩ := Prod.mk.inj hends
    refine hg.valid.mem_edgesFrom.mp ?_
    rw [hg.edgesFrom_eq]
    exact List.mem_filter.mpr ⟨he, beq_self_eq_true _⟩

/-- No edge is found between two states exactly if none joins them. -/
theorem position?_eq_none_iff (hg : g.Consistent) :
    g.position? s t = none ↔ (s, t) ∉ g.edges.toList.map Edge.ends := by
  have hedge : g.position? s t = none ↔ g.edge? s t = none := by
    cases hpos : g.position? s t with
    | none => simp [edge?, hpos]
    | some i =>
        obtain ⟨e, he, -⟩ := hg.valid.of_position? hpos
        simp [edge?, hpos, he]
  rw [hedge, Option.eq_none_iff_forall_ne_some]
  constructor
  · intro hnone hmem
    obtain ⟨e, he, hends⟩ := List.mem_map.mp hmem
    exact hnone e (hg.edge?_eq_some_iff.mpr ⟨he, hends⟩)
  · intro hnot e he
    obtain ⟨hmem, hends⟩ := hg.edge?_eq_some_iff.mp he
    exact hnot (List.mem_map.mpr ⟨e, hmem, hends⟩)

theorem position_unique (hg : g.Consistent) {i j : Nat} {e f : Edge}
    (he : g.edges[i]? = some e) (hf : g.edges[j]? = some f) (hends : e.ends = f.ends) : i = j := by
  have hlt : i < (g.edges.toList.map Edge.ends).length := by
    simpa using (Array.getElem?_eq_some_iff.mp he).1
  refine (List.getElem?_inj hlt hg.distinct).mp ?_
  simp [he, hf, hends]

/-- A change of the edge between two states changes the edge that joins them. -/
theorem edges_modifyEdge (hg : g.Consistent) (s t : Nat) (f : Edge → Edge) :
    (g.modifyEdge s t f).edges.toList =
      g.edges.toList.map fun e => if e.ends = (s, t) then f e else e := by
  unfold modifyEdge
  cases hpos : g.position? s t with
  | none =>
      have hnot := hg.position?_eq_none_iff.mp hpos
      refine ((List.map_congr_left fun e he => ?_).trans (List.map_id _)).symm
      exact if_neg fun hends => hnot (List.mem_map.mpr ⟨e, he, hends⟩)
  | some i =>
      obtain ⟨e, he, hsource, htarget⟩ := hg.valid.of_position? hpos
      refine List.ext_getElem? fun j => ?_
      simp only [Array.getElem?_toList, Array.getElem?_modify, List.getElem?_map]
      by_cases hij : i = j
      · subst hij
        simp [he, Edge.ends, hsource, htarget]
      · rw [if_neg hij]
        cases hj : g.edges[j]? with
        | none => rfl
        | some e' =>
            have hne : e'.ends ≠ (s, t) := fun hends => hij (hg.position_unique he hj <| by
              rw [hends, Edge.ends, hsource, htarget])
            rw [Option.map_some, if_neg hne]

end Consistent

/-! ## What the calls keep -/

theorem outOf_modifyEdge (g : Graph) (s t : Nat) (f : Edge → Edge) (a : Nat) :
    (g.modifyEdge s t f).outOf a = g.outOf a := by
  unfold modifyEdge
  split <;> rfl

@[simp] theorem final_modifyEdge (g : Graph) (s t : Nat) (f : Edge → Edge) :
    (g.modifyEdge s t f).final = g.final := by
  unfold modifyEdge
  split <;> rfl

@[simp] theorem final_addEdge (g : Graph) (s t : Nat) (i o : String) :
    (g.addEdge s t i o).final = g.final := by
  unfold addEdge
  split <;> rfl

/-- The edges out of a state stand where they did if the sources of all edges do. -/
theorem leaving_congr
    (hsources : h.edges.toList.map Edge.source = g.edges.toList.map Edge.source) (a : Nat) :
    h.leaving a = g.leaving a := by
  have hsize : h.edges.size = g.edges.size := by
    simpa using congrArg List.length hsources
  have hat : ∀ i : Nat, (h.edges[i]?).map Edge.source = (g.edges[i]?).map Edge.source := fun i => by
    rw [← Array.getElem?_toList, ← Array.getElem?_toList, ← List.getElem?_map, hsources,
      List.getElem?_map]
  rw [leaving, leaving, hsize]
  refine List.filter_congr fun i _ => ?_
  have hi := hat i
  cases hh : h.edges[i]? <;> cases hg : g.edges[i]? <;> rw [hh, hg] at hi <;> simp_all

/-- A new edge stands behind those that leave its source. -/
theorem leaving_push {e : Edge} (hedges : h.edges = g.edges.push e) (a : Nat) :
    h.leaving a = g.leaving a ++ if e.source = a then [g.edges.size] else [] := by
  rw [leaving, leaving, hedges, Array.size_push, List.range_succ, List.filter_append]
  congr 1
  · refine List.filter_congr fun i hi => ?_
    rw [Array.getElem?_push, if_neg (Nat.ne_of_lt (List.mem_range.mp hi))]
  · by_cases ha : e.source = a <;> simp [ha]

namespace Consistent

theorem addState (hg : g.Consistent) (w : Option String) : (g.addState w).Consistent where
  listed a ha := by
    rw [outOf_addState]
    by_cases hlt : a < g.size
    · exact hg.listed a hlt
    · have hnone : (g.addState w).leaving a = [] := List.eq_nil_iff_forall_not_mem.mpr fun i hi => by
        obtain ⟨e, he, hsource⟩ := of_mem_leaving hi
        have hmem : e ∈ g.edges.toList := Array.mem_toList_iff.mpr (Array.mem_of_getElem? he)
        exact hlt (hsource ▸ (hg.inside e hmem).1)
      rw [hnone, outOf_of_size_le (Nat.le_of_not_lt hlt)]
  distinct := hg.distinct
  inside e he := by
    have hlt := hg.inside e he
    rw [size_addState]
    omega
  start_lt a ha := by
    have hlt := hg.start_lt a ha
    rw [size_addState]
    omega
  final_lt a ha := by
    have hlt := hg.final_lt a ha
    rw [size_addState]
    omega

theorem setStart (hg : g.Consistent) (hs : s < g.size) : (g.setStart s).Consistent where
  listed := hg.listed
  distinct := hg.distinct
  inside := hg.inside
  start_lt a ha := by
    cases ha
    exact hs
  final_lt := hg.final_lt

theorem setFinal (hg : g.Consistent) (hs : s < g.size) : (g.setFinal s).Consistent where
  listed := hg.listed
  distinct := hg.distinct
  inside := hg.inside
  start_lt := hg.start_lt
  final_lt a ha := by
    cases ha
    exact hs

theorem ends_modifyEdge (hg : g.Consistent) {f : Edge → Edge} (hf : Keeps f) (s t : Nat) :
    (g.modifyEdge s t f).edges.toList.map Edge.ends = g.edges.toList.map Edge.ends := by
  rw [hg.edges_modifyEdge, List.map_map]
  refine List.map_congr_left fun e _ => ?_
  rw [Function.comp_apply]
  split
  · exact Prod.ext (hf e).1 (hf e).2
  · rfl

theorem modifyEdge (hg : g.Consistent) {f : Edge → Edge} (hf : Keeps f) (s t : Nat) :
    (g.modifyEdge s t f).Consistent := by
  have hends := hg.ends_modifyEdge hf s t
  constructor
  case listed =>
    intro a ha
    rw [size_modifyEdge] at ha
    rw [outOf_modifyEdge, hg.listed a ha]
    refine (leaving_congr ?_ a).symm
    simpa [Function.comp_def, Edge.ends] using congrArg (List.map Prod.fst) hends
  case distinct => exact hends ▸ hg.distinct
  case inside =>
    intro e he
    have hmem : e.ends ∈ g.edges.toList.map Edge.ends := hends ▸ List.mem_map_of_mem he
    obtain ⟨e', he', heq⟩ := List.mem_map.mp hmem
    obtain ⟨hsource, htarget⟩ := Prod.mk.inj heq
    rw [size_modifyEdge, ← hsource, ← htarget]
    exact hg.inside e' he'
  case start_lt =>
    intro a ha
    rw [start_modifyEdge] at ha
    rw [size_modifyEdge]
    exact hg.start_lt a ha
  case final_lt =>
    intro a ha
    rw [final_modifyEdge] at ha
    rw [size_modifyEdge]
    exact hg.final_lt a ha

theorem addEdge (hg : g.Consistent) (hs : s < g.size) (ht : t < g.size) (i o : String) :
    (g.addEdge s t i o).Consistent := by
  cases hpos : g.position? s t with
  | some k =>
      rw [addEdge_of_some hpos]
      exact hg.modifyEdge (keeps_relabelled i o) s t
  | none =>
      have hedges := edges_addEdge_of_none (i := i) (o := o) hpos
      have hnew : (g.addEdge s t i o).edges.toList = g.edges.toList ++ [⟨s, t, i, o, none, none⟩] := by
        rw [hedges, Array.toList_push]
      constructor
      case listed =>
        intro a ha
        rw [size_addEdge] at ha
        rw [outOf_addEdge_of_none hpos hs, leaving_push hedges]
        by_cases has : a = s
        · rw [if_pos has, if_pos has.symm, has, hg.listed s hs]
        · rw [if_neg has, if_neg (Ne.symm has), List.append_nil, hg.listed a ha]
      case distinct =>
        rw [hnew, List.map_append, List.nodup_append]
        refine ⟨hg.distinct, by simp, ?_⟩
        intro x hx y hy hxy
        obtain rfl : y = (s, t) := by simpa [Edge.ends] using hy
        exact hg.position?_eq_none_iff.mp hpos (hxy ▸ hx)
      case inside =>
        intro e he
        rw [hnew, List.mem_append, List.mem_singleton] at he
        rw [size_addEdge]
        rcases he with he | rfl
        · exact hg.inside e he
        · exact ⟨hs, ht⟩
      case start_lt =>
        intro a ha
        rw [start_addEdge] at ha
        rw [size_addEdge]
        exact hg.start_lt a ha
      case final_lt =>
        intro a ha
        rw [final_addEdge] at ha
        rw [size_addEdge]
        exact hg.final_lt a ha

/-- Adding an edge relabels the one that joins the same states, or else appends
one. -/
theorem edges_addEdge (hg : g.Consistent) (s t : Nat) (i o : String) :
    (g.addEdge s t i o).edges.toList =
      if (s, t) ∈ g.edges.toList.map Edge.ends then
        g.edges.toList.map fun e => if e.ends = (s, t) then relabelled i o e else e
      else g.edges.toList ++ [⟨s, t, i, o, none, none⟩] := by
  cases hpos : g.position? s t with
  | some k =>
      have hmem : (s, t) ∈ g.edges.toList.map Edge.ends := by
        by_contra hnot
        rw [hg.position?_eq_none_iff.mpr hnot] at hpos
        cases hpos
      rw [if_pos hmem, addEdge_of_some hpos, hg.edges_modifyEdge]
  | none =>
      rw [if_neg (hg.position?_eq_none_iff.mp hpos), edges_addEdge_of_none hpos, Array.toList_push]

end Consistent

theorem consistent_empty : Consistent {} where
  listed _ hs := absurd hs (Nat.not_lt_zero _)
  distinct := List.nodup_nil
  inside _ he := (List.not_mem_nil he).elim
  start_lt _ hs := by cases hs
  final_lt _ hs := by cases hs

theorem keeps_decorated (weight : Option Float) (count : Option Nat) :
    Keeps (Edge.decorated weight count) := fun _ => ⟨rfl, rfl⟩

/-- A call on states that are there keeps the graph consistent. -/
theorem Consistent.apply (hg : g.Consistent) {c : GraphCall} (hc : c.Fits g) :
    (c.apply g).Consistent := by
  cases c with
  | addState word => exact hg.addState word
  | setStart s => exact hg.setStart hc
  | setFinal s => exact hg.setFinal hc
  | addEdge s t i o => exact hg.addEdge hc.1 hc.2 i o
  | decorate s t weight count => exact hg.modifyEdge (keeps_decorated weight count) s t

theorem History.consistent {calls : List GraphCall} (hg : History calls g) : g.Consistent := by
  induction hg with
  | empty => exact consistent_empty
  | call _ hc ih => exact ih.apply hc

/-! ## What the calls tell of the graph -/

/-- The list with the element at its end, unless it holds the element. -/
def appendNew {α : Type} [DecidableEq α] (l : List α) (a : α) : List α :=
  if a ∈ l then l else l ++ [a]

theorem eraseDups_concat {α : Type} [BEq α] [LawfulBEq α] [DecidableEq α] (l : List α) (a : α) :
    (l ++ [a]).eraseDups = appendNew l.eraseDups a := by
  have hone : [a].eraseDups = [a] := rfl
  rw [List.eraseDups_append, appendNew]
  by_cases ha : a ∈ l
  · simp [List.removeAll, ha]
  · simp [List.removeAll, ha, hone]

namespace Consistent

theorem targets_eq (hg : g.Consistent) (a : Nat) :
    (g.edgesFrom a).map Edge.target =
      ((g.edges.toList.map Edge.ends).filter (·.1 == a)).map Prod.snd := by
  rw [hg.edgesFrom_eq, List.filter_map, List.map_map]
  rfl

theorem mem_targets_iff (hg : g.Consistent) :
    t ∈ (g.edgesFrom s).map Edge.target ↔ (s, t) ∈ g.edges.toList.map Edge.ends := by
  rw [hg.targets_eq]
  simp

theorem ends_addEdge (hg : g.Consistent) (s t : Nat) (i o : String) :
    (g.addEdge s t i o).edges.toList.map Edge.ends =
      appendNew (g.edges.toList.map Edge.ends) (s, t) := by
  cases hpos : g.position? s t with
  | some k =>
      have hmem : (s, t) ∈ g.edges.toList.map Edge.ends := by
        by_contra hnot
        rw [hg.position?_eq_none_iff.mpr hnot] at hpos
        cases hpos
      rw [appendNew, if_pos hmem, addEdge_of_some hpos, hg.ends_modifyEdge (keeps_relabelled i o)]
  | none =>
      rw [appendNew, if_neg (hg.position?_eq_none_iff.mp hpos), edges_addEdge_of_none hpos,
        Array.toList_push, List.map_append]
      rfl

/-- An edge adds its target to those of its source. -/
theorem targets_addEdge (hg : g.Consistent) (hs : s < g.size) (ht : t < g.size) (i o : String)
    (a : Nat) :
    ((g.addEdge s t i o).edgesFrom a).map Edge.target =
      if s = a then appendNew ((g.edgesFrom a).map Edge.target) t
      else (g.edgesFrom a).map Edge.target := by
  have hmem : t ∈ (g.edgesFrom s).map Edge.target ↔ (s, t) ∈ g.edges.toList.map Edge.ends :=
    hg.mem_targets_iff
  rw [(hg.addEdge hs ht i o).targets_eq, hg.ends_addEdge]
  by_cases hst : (s, t) ∈ g.edges.toList.map Edge.ends
  · rw [appendNew, if_pos hst, ← hg.targets_eq]
    split
    next ha =>
      subst ha
      rw [appendNew, if_pos (hmem.mpr hst)]
    next => rfl
  · rw [appendNew, if_neg hst, List.filter_append, List.map_append, ← hg.targets_eq]
    split
    next ha =>
      subst ha
      rw [appendNew, if_neg (mt hmem.mp hst)]
      simp
    next ha => simp [ha]

end Consistent

theorem edgesFrom_addState (g : Graph) (w : Option String) (s : Nat) :
    (g.addState w).edgesFrom s = g.edgesFrom s := by
  rw [edgesFrom, outOf_addState]
  rfl

section

variable {α β : Type} {f : α → Option β} {a : α}

theorem filterMap_concat_of_none (h : f a = none) (l : List α) :
    (l ++ [a]).filterMap f = l.filterMap f := by
  rw [List.filterMap_append, List.filterMap_cons_none h, List.filterMap_nil, List.append_nil]

theorem filterMap_concat_of_some {b : β} (h : f a = some b) (l : List α) :
    (l ++ [a]).filterMap f = l.filterMap f ++ [b] := by
  rw [List.filterMap_append, List.filterMap_cons_some h, List.filterMap_nil]

end

namespace History

variable {calls : List GraphCall}

/-- The targets of the edges out of a state are those that the calls have named, in
the order in which they first came up. -/
theorem targets_eq (hg : History calls g) (s : Nat) :
    (g.edgesFrom s).map Edge.target = (calls.filterMap (GraphCall.targetFrom? s)).eraseDups := by
  induction hg with
  | empty => rfl
  | @call calls g c hg hc ih =>
      have hcons := hg.consistent
      cases c with
      | addEdge a t i o =>
          rw [GraphCall.apply, hcons.targets_addEdge hc.1 hc.2, ih]
          split
          next ha =>
            have hnew : GraphCall.targetFrom? s (.addEdge a t i o) = some t := if_pos ha
            rw [filterMap_concat_of_some hnew, eraseDups_concat]
          next ha =>
            have hnew : GraphCall.targetFrom? s (.addEdge a t i o) = none := if_neg ha
            rw [filterMap_concat_of_none hnew]
      | decorate a t weight count =>
          have hkeeps := keeps_decorated weight count
          rw [GraphCall.apply, (hcons.modifyEdge hkeeps a t).targets_eq,
            hcons.ends_modifyEdge hkeeps, ← hcons.targets_eq, ih, filterMap_concat_of_none rfl]
      | addState word => rw [GraphCall.apply, edgesFrom_addState, ih, filterMap_concat_of_none rfl]
      | setStart a =>
          rw [filterMap_concat_of_none rfl]
          exact ih
      | setFinal a =>
          rw [filterMap_concat_of_none rfl]
          exact ih

/-- Between two states are the labels of the last edge that was added there. -/
theorem labels_eq (hg : History calls g) (s t : Nat) :
    (g.edge? s t).map Edge.labels = (calls.filterMap (GraphCall.labelsFor? s t)).getLast? := by
  induction hg with
  | empty => rfl
  | @call calls g c hg hc ih =>
      have hvalid := hg.consistent.valid
      cases c with
      | addEdge a b i o =>
          rw [GraphCall.apply, hvalid.edge?_addEdge hc.1]
          by_cases hst : a = s ∧ b = t
          · have hnew : GraphCall.labelsFor? s t (.addEdge a b i o) = some (i, o) := if_pos hst
            rw [if_pos ⟨hst.1.symm, hst.2.symm⟩, filterMap_concat_of_some hnew, List.getLast?_concat]
            rfl
          · have hnew : GraphCall.labelsFor? s t (.addEdge a b i o) = none := if_neg hst
            rw [if_neg fun h => hst ⟨h.1.symm, h.2.symm⟩, ih, filterMap_concat_of_none hnew]
      | decorate a b weight count =>
          rw [GraphCall.apply, hvalid.edge?_modifyEdge (keeps_decorated weight count),
            filterMap_concat_of_none rfl, ← ih]
          split
          next hst =>
            rw [hst.1, hst.2, Option.map_map]
            rfl
          next => rfl
      | addState word => rw [GraphCall.apply, edge?_addState, ih, filterMap_concat_of_none rfl]
      | setStart a =>
          rw [filterMap_concat_of_none rfl]
          exact ih
      | setFinal a =>
          rw [filterMap_concat_of_none rfl]
          exact ih

/-- The start is the state that was last made the start. -/
theorem start_eq (hg : History calls g) :
    g.start = (calls.filterMap GraphCall.start?).getLast? := by
  induction hg with
  | empty => rfl
  | @call calls g c hg hc ih =>
      cases c with
      | setStart s =>
          have hnew : (GraphCall.setStart s).start? = some s := rfl
          rw [filterMap_concat_of_some hnew, List.getLast?_concat]
          rfl
      | addState word =>
          rw [filterMap_concat_of_none rfl]
          exact ih
      | setFinal s =>
          rw [filterMap_concat_of_none rfl]
          exact ih
      | addEdge a b i o =>
          rw [filterMap_concat_of_none rfl, GraphCall.apply, start_addEdge, ih]
      | decorate a b weight count =>
          rw [filterMap_concat_of_none rfl, GraphCall.apply, start_modifyEdge, ih]

/-- The final state is the one that was last made so. -/
theorem final_eq (hg : History calls g) :
    g.final = (calls.filterMap GraphCall.final?).getLast? := by
  induction hg with
  | empty => rfl
  | @call calls g c hg hc ih =>
      cases c with
      | setFinal s =>
          have hnew : (GraphCall.setFinal s).final? = some s := rfl
          rw [filterMap_concat_of_some hnew, List.getLast?_concat]
          rfl
      | addState word =>
          rw [filterMap_concat_of_none rfl]
          exact ih
      | setStart s =>
          rw [filterMap_concat_of_none rfl]
          exact ih
      | addEdge a b i o =>
          rw [filterMap_concat_of_none rfl, GraphCall.apply, final_addEdge, ih]
      | decorate a b weight count =>
          rw [filterMap_concat_of_none rfl, GraphCall.apply, final_modifyEdge, ih]

end History

/-! ## Marks -/

theorem filter_range_eq {n : Nat} {a : Option Nat} (ha : ∀ s, a = some s → s < n) :
    (List.range n).filter (fun s => a == some s) = a.toList := by
  cases a with
  | none =>
      refine List.filter_eq_nil_iff.mpr fun s _ => ?_
      simp
  | some b =>
      have hone : (List.range n).count b = 1 :=
        List.count_eq_one_of_mem List.nodup_range (List.mem_range.mpr (ha b rfl))
      calc (List.range n).filter (fun s => some b == some s)
          = (List.range n).filter (· == b) := List.filter_congr fun s _ => by
            rw [Option.some_beq_some, BEq.comm]
        _ = [b] := by rw [List.filter_beq, hone, List.replicate_one]

/-- One state is marked as the start, namely the start, or none if there is none. -/
theorem Consistent.starts_eq (hg : g.Consistent) :
    g.toData.nodes.filter NodeData.isStart = g.start.toList.map g.nodeData := by
  rw [toData, List.filter_map, ← filter_range_eq hg.start_lt]
  rfl

/-- One state is marked as final, namely the final one, or none if there is none. -/
theorem Consistent.finals_eq (hg : g.Consistent) :
    g.toData.nodes.filter NodeData.isFinal = g.final.toList.map g.nodeData := by
  rw [toData, List.filter_map, ← filter_range_eq hg.final_lt]
  rfl

end Graph

end Utterance
