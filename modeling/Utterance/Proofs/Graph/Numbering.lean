import Mathlib.Data.List.Induction
import Mathlib.Data.List.Perm.Subperm
import Mathlib.Data.Set.Function
import Mathlib.Order.Interval.Set.Defs
import Utterance.Graph.Fst
import Utterance.Proofs.Graph.History

/-!
# Numbering states while edges are written

The walk gives a state its number when an edge first leads there, and writes the edge at
once.  What it has done so far is told by the edges that it has written, in order (`Records`):
the states that it has met are the root and their targets, each once; their lines show the
numbers that these states have *now*, as states are only ever added at the end; the symbols
are those that were known before and the labels of the edges.

One more edge keeps this (`Records.addEdge`), and so do all edges of a state.  The walk visits
the states in the order of their numbers, and the bound on its steps is never reached, as there
are no more states in the graph than that.  So it ends at a label that cannot be written, or
when every state that it has met is visited (`run_spec`).  Then it has met exactly the states
that can be reached from the root, and written each edge between them once
(`Complete.mem_met_iff`, `Complete.mem_written_iff`, `Complete.nodup_written`).
-/

namespace Utterance

/-! ## Places in a list -/

section

variable {α : Type} [DecidableEq α]

theorem nodup_eraseDups (l : List α) : l.eraseDups.Nodup := by
  induction l using List.reverseRecOn with
  | nil => exact List.nodup_nil
  | append_singleton l a ih =>
      rw [Graph.eraseDups_concat, Graph.appendNew]
      split
      · exact ih
      next ha =>
        refine List.nodup_append.mpr ⟨ih, List.nodup_singleton a, ?_⟩
        rintro b hb c hc rfl
        exact ha (List.mem_singleton.mp hc ▸ hb)

theorem idxOf?_eq (xs : Array α) (a : α) :
    xs.idxOf? a = if a ∈ xs.toList then some (xs.toList.idxOf a) else none := by
  have harray : xs.idxOf? a = xs.toList.idxOf? a := by
    rw [← List.idxOf?_toArray]
  rw [harray]
  split
  next ha =>
    rw [List.idxOf_eq_getD_idxOf?]
    cases hfound : xs.toList.idxOf? a with
    | some n => rfl
    | none => exact (List.idxOf?_eq_none_iff.mp hfound ha).elim
  next ha => exact List.idxOf?_eq_none_iff.mpr ha

/-- Where nothing stands twice, the place of an element is the one where it stands. -/
theorem idxOf?_eq_some_iff {xs : Array α} (hxs : xs.toList.Nodup) {a : α} {i : Nat} :
    xs.idxOf? a = some i ↔ xs.toList[i]? = some a := by
  rw [idxOf?_eq, List.getElem?_eq_some_iff]
  constructor
  · intro h
    split at h
    next ha =>
      obtain rfl := Option.some.inj h
      exact ⟨List.idxOf_lt_length_iff.mpr ha, List.getElem_idxOf _⟩
    next => cases h
  · rintro ⟨hlt, rfl⟩
    rw [if_pos (List.getElem_mem hlt), hxs.idxOf_getElem i hlt]

end

/-! ## The part of a graph that is written -/

namespace Graph

/-- The states that are met from the root along edges that are followed. -/
inductive Meets (g : Graph) (follows : Edge → Bool) (root : Nat) : Nat → Prop where
  | root : Meets g follows root root
  | step {e : Edge} : Meets g follows root e.source → e ∈ g.edges.toList → follows e = true →
      Meets g follows root e.target

/-- The edges that are followed from the states that are met. -/
structure Writes (g : Graph) (follows : Edge → Bool) (root : Nat) (e : Edge) : Prop where
  mem : e ∈ g.edges.toList
  followed : follows e = true
  source : g.Meets follows root e.source

theorem Writes.target {g : Graph} {follows : Edge → Bool} {root : Nat} {e : Edge}
    (he : g.Writes follows root e) : g.Meets follows root e.target :=
  .step he.source he.mem he.followed

theorem Consistent.lt_of_meets {g : Graph} (hg : g.Consistent) {follows : Edge → Bool}
    {root s : Nat} (hroot : root < g.size) (hs : g.Meets follows root s) : s < g.size := by
  cases hs with
  | root => exact hroot
  | step _ he _ => exact (hg.inside _ he).2

theorem Consistent.mem_edges_iff {g : Graph} (hg : g.Consistent) {follows : Edge → Bool} {s : Nat}
    {e : Edge} :
    e ∈ FstWalk.edges g follows s ↔ e ∈ g.edges.toList ∧ e.source = s ∧ follows e = true := by
  rw [FstWalk.edges, hg.edgesFrom_eq, List.mem_filter, List.mem_filter, beq_iff_eq, and_assoc]

end Graph

/-- Both labels of the edge are symbols, or empty. -/
def Edge.Printable (e : Edge) : Prop := e.input.hasBlank = false ∧ e.output.hasBlank = false

instance (e : Edge) : Decidable e.Printable :=
  inferInstanceAs (Decidable (e.input.hasBlank = false ∧ e.output.hasBlank = false))

namespace FstOptions

/-- The symbol of a label. -/
def shown (o : FstOptions) (label : String) : String := if label.isEmpty then o.eps else label

def weightOf (o : FstOptions) (e : Edge) : Float :=
  if o.includeWeights then e.weight.getD o.defaultWeight else o.defaultWeight

/-- The line of an edge, if states are numbered by `f`. -/
def arcOf (o : FstOptions) (f : Nat → Nat) (e : Edge) : Arc :=
  ⟨f e.source, f e.target, o.shown e.input, o.shown e.output, o.weightOf e⟩

end FstOptions

/-- Adds symbols one after the other. -/
def SymbolTable.internAll (t : SymbolTable) (symbols : List String) : SymbolTable :=
  symbols.foldl intern t

namespace FstWalk

variable {g : Graph} {o : FstOptions} {follows : Edge → Bool} {root n s : Nat} {w w' : FstWalk}
  {e : Edge} {inputs outputs : SymbolTable} {es written more : List Edge}

/-! ## One edge -/

theorem symbol_eq (o : FstOptions) (label : String) :
    symbol o label =
      if label.hasBlank then .error (.blankLabel label) else .ok (o.shown label) := by
  rw [symbol, FstOptions.shown]
  by_cases hempty : label.isEmpty = true
  · have hblank : label.hasBlank = false := by
      rw [String.isEmpty_iff.mp hempty]
      rfl
    rw [if_pos hempty, if_pos hempty, hblank, if_neg Bool.false_ne_true]
  · rw [if_neg hempty, if_neg hempty]

/-- The walk behind the line of an edge from the state with the number `n`. -/
def withLine (o : FstOptions) (n : Nat) (w : FstWalk) (e : Edge) (met : Array Nat) : FstWalk where
  met
  arcs := ⟨n, met.toList.idxOf e.target, o.shown e.input, o.shown e.output, o.weightOf e⟩ :: w.arcs
  inputs := w.inputs.intern (o.shown e.input)
  outputs := w.outputs.intern (o.shown e.output)

theorem addEdge_eq_ok (he : e.Printable) (o : FstOptions) (n : Nat) (w : FstWalk) :
    ∃ met, met.toList = Graph.appendNew w.met.toList e.target ∧
      addEdge o n w e = .ok (withLine o n w e met) := by
  have hinput : symbol o e.input = .ok (o.shown e.input) := by
    rw [symbol_eq, he.1, if_neg Bool.false_ne_true]
  have houtput : symbol o e.output = .ok (o.shown e.output) := by
    rw [symbol_eq, he.2, if_neg Bool.false_ne_true]
  have hfound := idxOf?_eq w.met e.target
  by_cases hmet : e.target ∈ w.met.toList
  · rw [if_pos hmet] at hfound
    refine ⟨w.met, by rw [Graph.appendNew, if_pos hmet], ?_⟩
    simp only [addEdge, hfound, hinput, houtput, bind, Except.bind, pure, Except.pure]
    rfl
  · rw [if_neg hmet] at hfound
    have hnew : (w.met.push e.target).toList = w.met.toList ++ [e.target] := Array.toList_push
    have hidx : (w.met.push e.target).toList.idxOf e.target = w.met.size := by
      rw [hnew, List.idxOf_append_of_notMem hmet, List.idxOf_cons_self, Nat.add_zero,
        Array.length_toList]
    refine ⟨w.met.push e.target, by rw [hnew, Graph.appendNew, if_neg hmet], ?_⟩
    simp only [addEdge, hfound, hinput, houtput, bind, Except.bind, pure, Except.pure, withLine,
      hidx]
    rfl

theorem addEdge_eq_error (he : ¬e.Printable) (o : FstOptions) (n : Nat) (w : FstWalk) :
    ∃ err, addEdge o n w e = .error err := by
  by_cases hinput : e.input.hasBlank = true
  · refine ⟨.blankLabel e.input, ?_⟩
    simp only [addEdge, symbol_eq, hinput, if_true, bind, Except.bind]
  · have houtput : e.output.hasBlank = true := by
      rw [Bool.not_eq_true] at hinput
      exact Bool.not_eq_false _ ▸ fun h => he ⟨hinput, h⟩
    refine ⟨.blankLabel e.output, ?_⟩
    simp only [addEdge, symbol_eq, hinput, houtput, if_true, bind, Except.bind]
    rfl

/-! ## The edges written so far -/

/-- The walk from the root has written these edges, in this order. -/
structure Records (o : FstOptions) (root : Nat) (inputs outputs : SymbolTable)
    (written : List Edge) (w : FstWalk) : Prop where
  met_eq : w.met.toList = (root :: written.map Edge.target).eraseDups
  arcs_eq : w.arcs.reverse = written.map (o.arcOf w.met.toList.idxOf)
  source_mem : ∀ e ∈ written, e.source ∈ w.met.toList
  printable : ∀ e ∈ written, e.Printable
  inputs_eq : w.inputs = inputs.internAll (written.map fun e => o.shown e.input)
  outputs_eq : w.outputs = outputs.internAll (written.map fun e => o.shown e.output)

namespace Records

theorem mem_met_iff (R : Records o root inputs outputs written w) :
    s ∈ w.met.toList ↔ s = root ∨ ∃ e ∈ written, e.target = s := by
  rw [R.met_eq, List.mem_eraseDups, List.mem_cons, List.mem_map]

theorem nodup_met (R : Records o root inputs outputs written w) : w.met.toList.Nodup := by
  rw [R.met_eq]
  exact nodup_eraseDups _

/-- States keep their numbers. -/
theorem met_prefix (R : Records o root inputs outputs written w)
    (R' : Records o root inputs outputs (written ++ more) w') :
    w.met.toList <+: w'.met.toList := by
  rw [R.met_eq, R'.met_eq, List.map_append, ← List.cons_append, List.eraseDups_append]
  exact List.prefix_append ..

/-- The state with the number `n` has no other number. -/
theorem idxOf_eq (R : Records o root inputs outputs written w)
    (hn : w.met.toList[n]? = some s) : w.met.toList.idxOf s = n := by
  obtain ⟨hlt, rfl⟩ := List.getElem?_eq_some_iff.mp hn
  exact R.nodup_met.idxOf_getElem n hlt

theorem start (o : FstOptions) (root : Nat) (inputs outputs : SymbolTable) :
    Records o root inputs outputs [] { met := #[root], inputs, outputs } where
  met_eq := rfl
  arcs_eq := rfl
  source_mem _ he := (List.not_mem_nil he).elim
  printable _ he := (List.not_mem_nil he).elim
  inputs_eq := rfl
  outputs_eq := rfl

/-- One more edge, from a state that has been met. -/
theorem addEdge (R : Records o root inputs outputs written w) (he : e.Printable)
    (hn : w.met.toList[n]? = some e.source) :
    ∃ w', FstWalk.addEdge o n w e = .ok w' ∧
      Records o root inputs outputs (written ++ [e]) w' := by
  obtain ⟨met, hmet, hadd⟩ := addEdge_eq_ok he o n w
  have hsource := List.mem_of_getElem? hn
  have hold : ∀ s ∈ w.met.toList, s ∈ met.toList ∧ met.toList.idxOf s = w.met.toList.idxOf s := by
    intro s hs
    rw [hmet, Graph.appendNew]
    split
    · exact ⟨hs, rfl⟩
    · exact ⟨List.mem_append_left _ hs, List.idxOf_append_of_mem hs⟩
  refine ⟨_, hadd, ?_⟩
  constructor
  case met_eq =>
    show met.toList = _
    rw [hmet, R.met_eq, List.map_append, ← List.cons_append, List.map_singleton,
      Graph.eraseDups_concat]
  case arcs_eq =>
    show (_ :: w.arcs).reverse = (written ++ [e]).map (o.arcOf met.toList.idxOf)
    rw [List.reverse_cons, R.arcs_eq, List.map_append, List.map_singleton]
    congr 1
    · refine List.map_congr_left fun f hf => ?_
      have htarget : f.target ∈ w.met.toList := R.mem_met_iff.mpr (.inr ⟨f, hf, rfl⟩)
      rw [FstOptions.arcOf, FstOptions.arcOf, (hold _ (R.source_mem f hf)).2, (hold _ htarget).2]
    · rw [FstOptions.arcOf, (hold _ hsource).2, R.idxOf_eq hn]
  case source_mem =>
    show ∀ f ∈ written ++ [e], f.source ∈ met.toList
    rw [List.forall_mem_append, List.forall_mem_singleton]
    exact ⟨fun f hf => (hold _ (R.source_mem f hf)).1, (hold _ hsource).1⟩
  case printable =>
    rw [List.forall_mem_append, List.forall_mem_singleton]
    exact ⟨R.printable, he⟩
  case inputs_eq =>
    show w.inputs.intern _ = _
    rw [R.inputs_eq, List.map_append, SymbolTable.internAll, SymbolTable.internAll,
      List.foldl_append]
    rfl
  case outputs_eq =>
    show w.outputs.intern _ = _
    rw [R.outputs_eq, List.map_append, SymbolTable.internAll, SymbolTable.internAll,
      List.foldl_append]
    rfl

/-- The edges out of one state. -/
theorem addEdges (R : Records o root inputs outputs written w) (hes : ∀ e ∈ es, e.Printable)
    (hsource : ∀ e ∈ es, e.source = s) (hn : w.met.toList[n]? = some s) :
    ∃ w', es.foldlM (FstWalk.addEdge o n) w = .ok w' ∧
      Records o root inputs outputs (written ++ es) w' := by
  induction es generalizing written w with
  | nil => exact ⟨w, rfl, (List.append_nil written).symm ▸ R⟩
  | cons e es ih =>
      rw [List.forall_mem_cons] at hes hsource
      obtain ⟨w₁, hw₁, R₁⟩ := R.addEdge hes.1 (hsource.1.symm ▸ hn)
      have hn₁ : w₁.met.toList[n]? = some s := by
        obtain ⟨rest, hrest⟩ := R.met_prefix R₁
        rw [← hrest, List.getElem?_append_left (List.getElem?_eq_some_iff.mp hn).1, hn]
      obtain ⟨w₂, hw₂, R₂⟩ := ih R₁ hes.2 hsource.2 hn₁
      refine ⟨w₂, ?_, by rwa [List.append_assoc, List.singleton_append] at R₂⟩
      rw [List.foldlM_cons, hw₁]
      exact hw₂

end Records

/-- The walk stops at an edge that cannot be written. -/
theorem foldlM_addEdge_eq_error (hes : ∃ e ∈ es, ¬e.Printable) (o : FstOptions) (n : Nat)
    (w : FstWalk) : ∃ err, es.foldlM (addEdge o n) w = .error err := by
  induction es generalizing w with
  | nil =>
      obtain ⟨_, he, -⟩ := hes
      exact (List.not_mem_nil he).elim
  | cons e es ih =>
      rw [List.foldlM_cons]
      by_cases he : e.Printable
      · obtain ⟨f, hf, hprintable⟩ := hes
        have hrest : ∃ f ∈ es, ¬f.Printable := by
          rcases List.mem_cons.mp hf with rfl | hf
          · exact (hprintable he).elim
          · exact ⟨f, hf, hprintable⟩
        obtain ⟨met, -, hadd⟩ := addEdge_eq_ok he o n w
        rw [hadd]
        exact ih hrest _
      · obtain ⟨err, hadd⟩ := addEdge_eq_error he o n w
        exact ⟨err, by rw [hadd]; rfl⟩

/-! ## The whole walk -/

/-- The edges out of the states with the numbers below `n`. -/
def visited (g : Graph) (follows : Edge → Bool) (n : Nat) (w : FstWalk) : List Edge :=
  (w.met.toList.take n).flatMap (edges g follows)

/-- Every state that has been met is visited. -/
structure Complete (g : Graph) (o : FstOptions) (follows : Edge → Bool) (root : Nat)
    (inputs outputs : SymbolTable) (w : FstWalk) : Prop where
  records : Records o root inputs outputs (w.met.toList.flatMap (edges g follows)) w
  meets : ∀ s ∈ w.met.toList, g.Meets follows root s

/-- Only states that can be reached are met. -/
theorem Records.meets (hg : g.Consistent)
    (R : Records o root inputs outputs (visited g follows n w) w)
    (hmeets : ∀ s ∈ w.met.toList.take n, g.Meets follows root s) :
    ∀ s ∈ w.met.toList, g.Meets follows root s := by
  intro s hs
  rcases R.mem_met_iff.mp hs with rfl | ⟨e, he, rfl⟩
  · exact .root
  · obtain ⟨a, ha, he⟩ := List.mem_flatMap.mp he
    obtain ⟨hmem, rfl, hfollows⟩ := hg.mem_edges_iff.mp he
    exact .step (hmeets _ ha) hmem hfollows

theorem Records.size_le (hg : g.Consistent) (R : Records o root inputs outputs written w)
    (hroot : root < g.size) (hmeets : ∀ s ∈ w.met.toList, g.Meets follows root s) :
    w.met.toList.length ≤ g.size := by
  have hsub : w.met.toList ⊆ List.range g.size := fun s hs =>
    List.mem_range.mpr (hg.lt_of_meets hroot (hmeets s hs))
  have hle := (R.nodup_met.subperm hsub).length_le
  rwa [List.length_range] at hle

/-- One more state is visited. -/
theorem Records.visit (R : Records o root inputs outputs (visited g follows n w) w)
    (hg : g.Consistent) (hn : w.met.toList[n]? = some s)
    (hes : ∀ e ∈ edges g follows s, e.Printable) :
    ∃ w', (edges g follows s).foldlM (FstWalk.addEdge o n) w = .ok w' ∧
      Records o root inputs outputs (visited g follows (n + 1) w') w' ∧
      w'.met.toList.take (n + 1) = w.met.toList.take n ++ [s] := by
  obtain ⟨w', hw', R'⟩ := R.addEdges hes (fun e he => (hg.mem_edges_iff.mp he).2.1) hn
  obtain ⟨rest, hrest⟩ := R.met_prefix R'
  have hlt := (List.getElem?_eq_some_iff.mp hn).1
  have htake : w'.met.toList.take (n + 1) = w.met.toList.take n ++ [s] := by
    rw [← hrest, List.take_append_of_le_length hlt, List.take_add_one, hn]
    rfl
  have hvisited : visited g follows n w ++ edges g follows s = visited g follows (n + 1) w' := by
    rw [visited, visited, htake, List.flatMap_append, List.flatMap_singleton]
  rw [hvisited] at R'
  exact ⟨w', hw', R', htake⟩

/-- The walk visits everything or stops at an edge that cannot be written. -/
theorem run_spec (hg : g.Consistent) (hroot : root < g.size) {steps : Nat}
    (R : Records o root inputs outputs (visited g follows n w) w)
    (hmeets : ∀ s ∈ w.met.toList, g.Meets follows root s) (hn : n ≤ w.met.toList.length)
    (hsteps : steps + n = g.size + 1) :
    (∃ w', run g o follows steps n w = .ok w' ∧ Complete g o follows root inputs outputs w') ∨
      (∃ err, run g o follows steps n w = .error err) ∧
        ∃ e, g.Writes follows root e ∧ ¬e.Printable := by
  induction steps generalizing n w with
  | zero =>
      have hsize := R.size_le hg hroot hmeets
      omega
  | succ steps ih =>
      rw [run]
      cases hs : w.met[n]? with
      | none =>
          have hall : w.met.toList.take n = w.met.toList :=
            List.take_of_length_le (by simpa using hs)
          rw [visited, hall] at R
          exact .inl ⟨w, rfl, R, hmeets⟩
      | some s =>
          have hs' : w.met.toList[n]? = some s := by rwa [Array.getElem?_toList]
          have hlt := (List.getElem?_eq_some_iff.mp hs').1
          simp only
          by_cases hes : ∀ e ∈ edges g follows s, e.Printable
          · obtain ⟨w₁, hw₁, R₁, htake⟩ := R.visit hg hs' hes
            have hmeets₁ : ∀ a ∈ w₁.met.toList, g.Meets follows root a := by
              refine R₁.meets hg fun a ha => ?_
              rw [htake, List.mem_append, List.mem_singleton] at ha
              rcases ha with ha | rfl
              · exact hmeets a (List.mem_of_mem_take ha)
              · exact hmeets a (List.mem_of_getElem? hs')
            have hn₁ : n + 1 ≤ w₁.met.toList.length := by
              have hlength := congrArg List.length htake
              simp only [List.length_append, List.length_take, List.length_singleton] at hlength
              omega
            rw [hw₁]
            exact ih R₁ hmeets₁ hn₁ (by omega)
          · simp only [not_forall] at hes
            obtain ⟨e, he, hprintable⟩ := hes
            obtain ⟨err, hfold⟩ := foldlM_addEdge_eq_error ⟨e, he, hprintable⟩ o n w
            obtain ⟨hmem, rfl, hfollows⟩ := hg.mem_edges_iff.mp he
            rw [hfold]
            exact .inr ⟨⟨err, rfl⟩, e,
              ⟨hmem, hfollows, hmeets _ (List.mem_of_getElem? hs')⟩, hprintable⟩

theorem ofRoot_spec (hg : g.Consistent) (hroot : root < g.size) (o : FstOptions)
    (follows : Edge → Bool) (inputs outputs : SymbolTable) :
    (∃ w, ofRoot g o follows root inputs outputs = .ok w ∧
        Complete g o follows root inputs outputs w) ∨
      (∃ err, ofRoot g o follows root inputs outputs = .error err) ∧
        ∃ e, g.Writes follows root e ∧ ¬e.Printable := by
  have R := Records.start o root inputs outputs
  refine run_spec hg hroot R (fun s hs => ?_) (Nat.zero_le _) rfl
  obtain rfl := List.mem_singleton.mp hs
  exact .root

namespace Complete

variable (C : Complete g o follows root inputs outputs w) (hg : g.Consistent)

include C hg

theorem mem_met_iff : s ∈ w.met.toList ↔ g.Meets follows root s := by
  refine ⟨C.meets s, fun hs => ?_⟩
  induction hs with
  | root => exact C.records.mem_met_iff.mpr (.inl rfl)
  | @step e _ he hfollows ih =>
      refine C.records.mem_met_iff.mpr (.inr ⟨e, ?_, rfl⟩)
      exact List.mem_flatMap.mpr ⟨_, ih, hg.mem_edges_iff.mpr ⟨he, rfl, hfollows⟩⟩

theorem mem_written_iff :
    e ∈ w.met.toList.flatMap (edges g follows) ↔ g.Writes follows root e := by
  rw [List.mem_flatMap]
  constructor
  · rintro ⟨s, hs, he⟩
    obtain ⟨hmem, rfl, hfollows⟩ := hg.mem_edges_iff.mp he
    exact ⟨hmem, hfollows, C.meets _ hs⟩
  · intro he
    exact ⟨e.source, (C.mem_met_iff hg).mpr he.source,
      hg.mem_edges_iff.mpr ⟨he.mem, rfl, he.followed⟩⟩

theorem nodup_written : (w.met.toList.flatMap (edges g follows)).Nodup := by
  rw [List.nodup_flatMap]
  refine ⟨fun s _ => ?_, C.records.nodup_met.imp fun {a b} hne => ?_⟩
  · rw [edges, hg.edgesFrom_eq]
    exact (hg.distinct.of_map.filter _).filter _
  · refine List.disjoint_left.mpr fun e ha hb => ?_
    exact hne ((hg.mem_edges_iff.mp ha).2.1.symm.trans (hg.mem_edges_iff.mp hb).2.1)

/-- The numbers are those below the number of the states that are met. -/
theorem bijOn_idxOf :
    Set.BijOn w.met.toList.idxOf {s | g.Meets follows root s} (Set.Iio w.met.toList.length) := by
  refine ⟨fun s hs => ?_, fun s hs t _ heq => ?_, fun n hn => ?_⟩
  · exact List.idxOf_lt_length_iff.mpr ((C.mem_met_iff hg).mpr hs)
  · exact (List.idxOf_inj ((C.mem_met_iff hg).mpr hs)).mp heq
  · exact ⟨w.met.toList[n], (C.mem_met_iff hg).mp (List.getElem_mem hn),
      C.records.nodup_met.idxOf_getElem n hn⟩

omit hg in
theorem idxOf_root : w.met.toList.idxOf root = 0 := by
  rw [C.records.met_eq, List.eraseDups_cons, List.idxOf_cons_self]

end Complete

end FstWalk

end Utterance
