import Utterance.Proofs.Compile.Enumeration
import Utterance.Proofs.Compile.Faults
import Utterance.Proofs.Compile.Growth
import Utterance.Proofs.Search.Simple

/-!
# The counts count paths

What is counted and what is built are two recursions on the same trees.  The counts stop at
a largest number, but they do so alike everywhere: the count of a whole tree is the number of
its readings, or the limit if there are more (`Tree.count_eq`).  And the ways from the state
where an intent is entered to the final state are as many as the readings of its sentences
(`entersIntents_ofSentences`).  So an intent's count is the number of simple paths that take
its edge, if no group is empty, because an empty group leads nowhere, and if every rule has
one body, because the other ones would be counted but not built
(`intentCounts_eq_pathsThrough`).
-/

namespace Utterance

open Utterance.Graph

/-! ## Templates to be counted -/

/-- A group of nothing. -/
def Expr.isEmptyGroup : Expr → Bool
  | .seq .group _ [] _ _ => true
  | _ => false

/-- No group in the template is empty. -/
def Expr.Filled (e : Expr) : Prop := ∀ n ∈ e.nodes, n.isEmptyGroup = false

instance (e : Expr) : Decidable e.Filled :=
  inferInstanceAs (Decidable (∀ n ∈ e.nodes, n.isEmptyGroup = false))

/-- No group in the table's entries is empty. -/
def Table.Filled (t : Table) : Prop :=
  ∀ key values, t.get? key = some values → ∀ e ∈ values, e.Filled

/-- The table has exactly one body for every rule. -/
def Table.OneBodied (t : Table) : Prop :=
  ∀ grammar rule bodies, t.get? (ruleKey grammar rule) = some bodies → bodies.length = 1

theorem Expr.Filled.items {kind : SequenceKind} {text : String} {items : List Expr}
    {suffix : Suffix} {tag : Option Tag} (h : (seq kind text items suffix tag).Filled) :
    (kind = .group → items ≠ []) ∧ ∀ e ∈ items, e.Filled := by
  rw [Filled, nodes, List.forall_mem_cons] at h
  obtain ⟨hgroup, hitems⟩ := h
  refine ⟨?_, fun e he n hn => hitems n ?_⟩
  · rintro rfl rfl
    cases hgroup
  · rw [nodesOf_eq_flatMap]
    exact List.mem_flatMap.mpr ⟨e, he, hn⟩

mutual

/-- Every rule in the tree has exactly one body. -/
def Tree.OneBodied : Tree → Prop
  | .word _ _ _ => True
  | .seq _ items _ _ => AllOneBodied items
  | .rule _ bodies _ => bodies.length = 1 ∧ AllOneBodied bodies
  | .slot _ values _ _ => AllOneBodied values
  | .broken _ => True

def AllOneBodied : List Tree → Prop
  | [] => True
  | t :: ts => Tree.OneBodied t ∧ AllOneBodied ts

end

theorem allOneBodied_iff_forall {ts : List Tree} : AllOneBodied ts ↔ ∀ t ∈ ts, t.OneBodied := by
  induction ts with
  | nil => exact iff_of_true trivial fun _ ht => (List.not_mem_nil ht).elim
  | cons t ts ih => rw [AllOneBodied, ih, List.forall_mem_cons]

/-- Templates without empty groups unfold to filled trees. -/
theorem filled_unfold {t : Table} (ht : t.Filled) :
    ∀ (c : Scope) (e : Expr), e.Filled → (unfold t c e).Filled := by
  have hbroken : ∀ err, AllFilled [.broken err] := by
    intro err
    simp only [AllFilled, Tree.Filled, and_self]
  refine (unfold.mutual_induct t (fun c e => e.Filled → (unfold t c e).Filled)
    (fun c es => (∀ e ∈ es, e.Filled) → AllFilled (unfoldAll t c es))
    ?word ?seq ?ruleMissing ?ruleClosed ?ruleOpen ?slotMissing ?slotClosed ?slotOpen ?nil
    ?cons).1
  case word =>
    intro c text suffix tag _
    rw [unfold, Tree.Filled]
    trivial
  case seq =>
    intro c kind text items suffix tag ih he
    obtain ⟨hgroup, hitems⟩ := he.items
    rw [unfold]
    cases kind with
    | alternative =>
        rw [Tree.Filled]
        exact ih hitems
    | group =>
        rw [Tree.Filled]
        refine ⟨?_, ih hitems⟩
        rw [unfoldAll_eq_map]
        exact mt List.map_eq_nil_iff.mp (hgroup rfl)
  case ruleMissing =>
    intro c ref tag key hnone _
    rw [unfold_rule_of_none hnone, Tree.Filled]
    exact hbroken _
  case ruleClosed =>
    intro c ref tag key bodies hbodies hclosed ih _
    rw [unfold_rule_of_get? hbodies, hclosed, if_neg Bool.false_ne_true, Tree.Filled]
    exact ih (ht _ _ hbodies)
  case ruleOpen =>
    intro c ref tag key bodies hbodies hopen _
    rw [unfold_rule_of_get? hbodies, if_pos (Bool.of_not_eq_false hopen), Tree.Filled]
    exact hbroken _
  case slotMissing =>
    intro c text name suffix tag key hnone _
    rw [unfold_slot_of_none hnone, Tree.Filled]
    exact hbroken _
  case slotClosed =>
    intro c text name suffix tag key values hget hclosed ih _
    rw [unfold_slot_of_get? hget, hclosed, if_neg Bool.false_ne_true, Tree.Filled]
    exact ih (ht _ _ hget)
  case slotOpen =>
    intro c text name suffix tag key values hget hopen _
    rw [unfold_slot_of_get? hget, if_pos (Bool.of_not_eq_false hopen), Tree.Filled]
    exact hbroken _
  case nil =>
    intro c _
    rw [unfoldAll, AllFilled]
    trivial
  case cons =>
    intro c e es ihe ihes hes
    rw [List.forall_mem_cons] at hes
    rw [unfoldAll, AllFilled]
    exact ⟨ihe hes.1, ihes hes.2⟩

/-- A rule unfolds to its one body. -/
theorem oneBodied_unfold {t : Table} (hone : t.OneBodied) :
    ∀ (c : Scope) (e : Expr), (unfold t c e).OneBodied := by
  have hbroken : ∀ err, AllOneBodied [.broken err] := by
    intro err
    simp only [AllOneBodied, Tree.OneBodied, and_self]
  refine (unfold.mutual_induct t (fun c e => (unfold t c e).OneBodied)
    (fun c es => AllOneBodied (unfoldAll t c es))
    ?word ?seq ?ruleMissing ?ruleClosed ?ruleOpen ?slotMissing ?slotClosed ?slotOpen ?nil
    ?cons).1
  case word =>
    intro c text suffix tag
    rw [unfold, Tree.OneBodied]
    trivial
  case seq =>
    intro c kind text items suffix tag ih
    rw [unfold, Tree.OneBodied]
    exact ih
  case ruleMissing =>
    intro c ref tag key hnone
    rw [unfold_rule_of_none hnone, Tree.OneBodied]
    exact ⟨rfl, hbroken _⟩
  case ruleClosed =>
    intro c ref tag key bodies hbodies hclosed ih
    rw [unfold_rule_of_get? hbodies, hclosed, if_neg Bool.false_ne_true, Tree.OneBodied]
    refine ⟨?_, ih⟩
    rw [unfoldAll_eq_map, List.length_map]
    exact hone _ _ _ hbodies
  case ruleOpen =>
    intro c ref tag key bodies hbodies hopen
    rw [unfold_rule_of_get? hbodies, if_pos (Bool.of_not_eq_false hopen), Tree.OneBodied]
    exact ⟨rfl, hbroken _⟩
  case slotMissing =>
    intro c text name suffix tag key hnone
    rw [unfold_slot_of_none hnone, Tree.OneBodied]
    exact hbroken _
  case slotClosed =>
    intro c text name suffix tag key values hget hclosed ih
    rw [unfold_slot_of_get? hget, hclosed, if_neg Bool.false_ne_true, Tree.OneBodied]
    exact ih
  case slotOpen =>
    intro c text name suffix tag key values hget hopen
    rw [unfold_slot_of_get? hget, if_pos (Bool.of_not_eq_false hopen), Tree.OneBodied]
    exact hbroken _
  case nil =>
    intro c
    rw [unfoldAll, AllOneBodied]
    trivial
  case cons =>
    intro c e es ihe ihes
    rw [unfoldAll, AllOneBodied]
    exact ⟨ihe, ihes⟩

theorem filled_oneBodied_unfold {t : Table} (ht : t.Filled) (hone : t.OneBodied) (c : Scope)
    (e : Expr) (he : e.Filled) : (unfold t c e).Filled ∧ (unfold t c e).OneBodied :=
  ⟨filled_unfold ht c e he, oneBodied_unfold hone c e⟩

/-! ## What is counted -/

namespace Count

theorem add_min (a b : Nat) : add (min a limit) (min b limit) = min (a + b) limit := by
  unfold add
  omega

/-- Nothing is lost of a product when its factors stop at the limit, unless it would pass the
limit itself. -/
theorem mul_min (a b : Nat) : mul (min a limit) (min b limit) = min (a * b) limit := by
  unfold mul
  rcases Nat.eq_zero_or_pos a with rfl | ha
  · rw [Nat.zero_min, Nat.zero_mul, Nat.zero_mul]
  rcases Nat.eq_zero_or_pos b with rfl | hb
  · rw [Nat.zero_min, Nat.mul_zero, Nat.mul_zero]
  have hlimit : 1 ≤ limit := by decide
  by_cases hle : a ≤ limit ∧ b ≤ limit
  · rw [Nat.min_eq_left hle.1, Nat.min_eq_left hle.2]
  · -- one factor is at the limit and the other one is not zero
    have hproduct : limit ≤ min a limit * min b limit := by
      rcases not_and_or.mp hle with h | h
      · rw [Nat.min_eq_right (Nat.le_of_not_le h)]
        exact Nat.le_mul_of_pos_right _ (Nat.lt_min.mpr ⟨hb, hlimit⟩)
      · rw [Nat.min_eq_right (Nat.le_of_not_le h)]
        exact Nat.le_mul_of_pos_left _ (Nat.lt_min.mpr ⟨ha, hlimit⟩)
    have hmul : min a limit * min b limit ≤ a * b :=
      Nat.mul_le_mul (Nat.min_le_left _ _) (Nat.min_le_left _ _)
    rw [Nat.min_eq_right hproduct, Nat.min_eq_right (Nat.le_trans hproduct hmul)]

end Count

theorem length_readingsInTurn_cons (t : Tree) (ts : List Tree) :
    (readingsInTurn (t :: ts)).length = t.readings.length * (readingsInTurn ts).length := by
  rw [readingsInTurn, List.length_flatMap]
  simp only [List.length_map]
  rw [List.map_const', List.sum_replicate_nat]

mutual

/-- The count of a whole tree is the number of its readings, up to the limit. -/
theorem Tree.count_eq : ∀ t : Tree, t.Whole → t.OneBodied →
    t.count false = .ok (min t.readings.length Count.limit)
  | .word _ _ _, _, _ => by
      rw [Tree.count, Tree.readings]
      rfl
  | .seq .group items _ _, ht, hone => by
      rw [Tree.Whole] at ht
      rw [Tree.OneBodied] at hone
      rw [Tree.count, Tree.readings, List.length_map]
      exact productOf_eq items ht hone
  | .seq .alternative items _ _, ht, hone => by
      rw [Tree.Whole] at ht
      rw [Tree.OneBodied] at hone
      rw [Tree.count, Tree.readings, List.length_map]
      exact sumOf_eq items ht hone
  | .rule _ [] _, ht, _ => by
      rw [Tree.Whole] at ht
      exact ht.elim
  | .rule _ [body] _, ht, hone => by
      rw [Tree.Whole] at ht
      rw [Tree.OneBodied, AllOneBodied] at hone
      have hcount := Tree.count_eq body ht hone.2.1
      have hzero : min 0 Count.limit = 0 := Nat.zero_min _
      rw [Tree.count, sumOf, sumOf, hcount, Tree.readings, List.length_map]
      show Except.ok (Count.add _ 0) = _
      rw [← hzero, Count.add_min, Nat.add_zero]
  | .rule _ (_ :: _ :: _) _, _, hone => by
      rw [Tree.OneBodied] at hone
      cases hone.1
  | .slot _ values _ _, ht, hone => by
      rw [Tree.Whole] at ht
      rw [Tree.OneBodied] at hone
      rw [Tree.count, if_neg Bool.false_ne_true, Tree.readings, List.length_map]
      exact sumOf_eq values ht.2 hone
  | .broken _, ht, _ => by
      rw [Tree.Whole] at ht
      exact ht.elim

theorem productOf_eq : ∀ ts : List Tree, AllWhole ts → AllOneBodied ts →
    productOf false ts = .ok (min (readingsInTurn ts).length Count.limit)
  | [], _, _ => by
      rw [productOf, readingsInTurn]
      rfl
  | t :: ts, hts, hone => by
      rw [AllWhole] at hts
      rw [AllOneBodied] at hone
      rw [productOf, Tree.count_eq t hts.1 hone.1, productOf_eq ts hts.2 hone.2,
        length_readingsInTurn_cons, ← Count.mul_min]
      rfl

theorem sumOf_eq : ∀ ts : List Tree, AllWhole ts → AllOneBodied ts →
    sumOf false ts = .ok (min (readingsOfEach ts).length Count.limit)
  | [], _, _ => by
      rw [sumOf, readingsOfEach]
      rfl
  | t :: ts, hts, hone => by
      rw [AllWhole] at hts
      rw [AllOneBodied] at hone
      rw [sumOf, Tree.count_eq t hts.1 hone.1, sumOf_eq ts hts.2 hone.2, readingsOfEach,
        List.length_append, ← Count.add_min]
      rfl

end

/-- The readings of the sentences of an intent. -/
def readingsOfIntent (t : Table) (p : String × List Sentence) : List Reading :=
  readingsOfEach (p.2.map (Sentence.unfold t p.1))

theorem intentCount_eq {t : Table} {p : String × List Sentence}
    (hwhole : ∀ s ∈ p.2, (Sentence.unfold t p.1 s).Whole)
    (hone : ∀ s ∈ p.2, (Sentence.unfold t p.1 s).OneBodied) :
    intentCount t false p.1 p.2 = .ok (max 1 (min (readingsOfIntent t p).length Count.limit)) := by
  have hsum := sumOf_eq (p.2.map (Sentence.unfold t p.1))
    (allWhole_iff_forall.mpr (List.forall_mem_map.mpr hwhole))
    (allOneBodied_iff_forall.mpr (List.forall_mem_map.mpr hone))
  rw [intentCount, hsum, Nat.max_comm]
  rfl

/-! ## What is built -/

namespace Graph

variable {g h k : Graph} {s a : Nat} {xs ys : List Nat} {ways : List (List Nat × List Mark)}

/-- Ways to old states are listed as before. -/
theorem Extends.listsWays {L : Language Mark} (E : Extends g h s xs L) (hys : ∀ y ∈ ys, y < g.size)
    (hways : ListsWays g a ys ways) : ListsWays h a ys ways where
  nodup := hways.nodup
  mem_iff w := by
    rw [hways.mem_iff]
    exact exists_congr fun y => and_congr_right fun hy => (E.way_iff (hys y hy)).symm

/-- Edges from several states to one keep a graph consistent, and change nothing at the others. -/
theorem Consistent.foldl_addEdge {b : Nat} : ∀ {xs : List Nat} {g : Graph}, g.Consistent →
    b < g.size → (∀ x ∈ xs, x < g.size) →
    (xs.foldl (fun h x => h.addEdge x b "" "") g).Consistent ∧
      ∀ a ∉ xs, (xs.foldl (fun h x => h.addEdge x b "" "") g).edgesFrom a = g.edgesFrom a
  | [], _, hg, _, _ => ⟨hg, fun _ _ => rfl⟩
  | x :: xs, g, hg, hb, hxs => by
      rw [List.forall_mem_cons] at hxs
      have hsize : (g.addEdge x b "" "").size = g.size := size_addEdge ..
      have hrest : ∀ y ∈ xs, y < (g.addEdge x b "" "").size := hsize ▸ hxs.2
      obtain ⟨hconsistent, hsame⟩ :=
        foldl_addEdge (hg.addEdge hxs.1 hb "" "") (hsize ▸ hb) hrest
      refine ⟨hconsistent, fun a ha => ?_⟩
      obtain ⟨hne, ha⟩ := not_or.mp (mt List.mem_cons.mpr ha)
      rw [List.foldl_cons, hsame a ha, hg.edgesFrom_addEdge_of_ne hxs.1 hb "" "" hne]

/-- Joining changes nothing at the states that are not joined. -/
theorem Consistent.edgesFrom_join (hg : g.Consistent) (hxs : ∀ x ∈ xs, x < g.size) (ha : a ∉ xs) :
    (g.join xs).1.edgesFrom a = g.edgesFrom a := by
  have hsize : g.addState.size = g.size + 1 := size_addState g none
  have hxs' : ∀ x ∈ xs, x < g.addState.size := fun x hx => by
    have := hxs x hx
    omega
  exact (((hg.addState none).foldl_addEdge (by omega) hxs').2 a ha).trans
    (edgesFrom_addState g none a)

/-- The edge enters the intent: it carries its label, and the ways on from where it leads are as
many as the readings of the intent's sentences. -/
structure EntersIntent (t : Table) (h : Graph) (xs : List Nat) (p : String × List Sentence)
    (e : Edge) : Prop where
  target_lt : e.target < h.size
  output : e.output = (Control.intent p.1).text
  ways : ∃ ways, ListsWays h e.target xs ways ∧ ways.length = (readingsOfIntent t p).length

/-- What building intents from the state `start` does to a graph: at that state one edge is added
for each intent, in this order. -/
structure EntersIntents (t : Table) (start : Nat) (g h : Graph) (xs : List Nat)
    (l : List (String × List Sentence)) : Prop where
  consistent : h.Consistent
  exits_new : ∀ x ∈ xs, g.size ≤ x
  entries : ∃ entries, h.edgesFrom start = g.edgesFrom start ++ entries ∧
    List.Forall₂ (fun p e => g.size ≤ e.target ∧ EntersIntent t h xs p e) l entries

end Graph

theorem Graph.size_enter (g : Graph) (start : Nat) (intent : String) (w : EdgeWeight) :
    (g.enter start intent w).size = g.size + 1 := by
  rw [enter, size_modifyEdge, size_addEdge, size_addState]

/-- The edge that enters an intent. -/
def Edge.entering (start target : Nat) (intent : String) (w : EdgeWeight) : Edge :=
  Edge.decorate w { source := start, target, output := (Control.intent intent).text }

@[simp] theorem Edge.source_entering (start target : Nat) (intent : String) (w : EdgeWeight) :
    (entering start target intent w).source = start := (keeps_decorate w _).1

@[simp] theorem Edge.target_entering (start target : Nat) (intent : String) (w : EdgeWeight) :
    (entering start target intent w).target = target := (keeps_decorate w _).2

@[simp] theorem Edge.output_entering (start target : Nat) (intent : String) (w : EdgeWeight) :
    (entering start target intent w).output = (Control.intent intent).text := by
  cases w <;> rfl

/-- The edge that enters an intent comes after all others. -/
theorem Graph.Consistent.enter {g : Graph} (hg : g.Consistent) {start : Nat} (hs : start < g.size)
    (intent : String) (w : EdgeWeight) :
    (g.enter start intent w).Consistent ∧
      (g.enter start intent w).edgesFrom start =
        g.edgesFrom start ++ [Edge.entering start g.size intent w] := by
  have hsize : g.addState.size = g.size + 1 := size_addState g none
  have hs' : start < g.addState.size := by omega
  have hnew : g.size < g.addState.size := by omega
  have hedge := (hg.addState none).addEdge hs' hnew "" (Control.intent intent).text
  have hentry := hedge.modifyEdge (keeps_decorate w) start g.size
  refine ⟨hentry, ?_⟩
  have hends : ∀ e ∈ g.edges.toList, e.ends ≠ (start, g.size) := by
    intro e he hends
    obtain ⟨-, htarget⟩ := Prod.mk.inj hends
    exact Nat.ne_of_lt (hg.inside e he).2 htarget
  have hold : (start, g.size) ∉ g.addState.edges.toList.map Edge.ends := by
    rintro hmem
    obtain ⟨e, he, heq⟩ := List.mem_map.mp hmem
    exact hends e he heq
  rw [Graph.enter, hentry.edgesFrom_eq, hedge.edges_modifyEdge, (hg.addState none).edges_addEdge,
    if_neg hold, List.map_append, List.filter_append, hg.edgesFrom_eq]
  congr 1
  · refine congrArg _ ((List.map_congr_left fun e he => ?_).trans (List.map_id _))
    exact if_neg (hends e he)
  · have hsource : (Edge.entering start g.size intent w).source == start := by simp
    have hnewEnds : Edge.ends ⟨start, g.size, "", (Control.intent intent).text, none, none⟩ =
        (start, g.size) := rfl
    rw [List.map_singleton, if_pos hnewEnds, ← Edge.entering, List.filter_singleton, hsource,
      cond_true]

/-- What building the sentences of one intent does to a graph. -/
structure BuildsIntent (t : Table) (start : Nat) (g k : Graph) (ys : List Nat)
    (p : String × List Sentence) (w : EdgeWeight) : Prop where
  ascending : k.Ascending
  consistent : k.Consistent
  grown : g.size < k.size
  exits : ∀ y ∈ ys, g.size ≤ y ∧ y < k.size
  entered : k.edgesFrom start = g.edgesFrom start ++ [Edge.entering start g.size p.1 w]
  ways : ∃ ways, ListsWays k g.size ys ways ∧ ways.length = (readingsOfIntent t p).length

/-- The sentences are built from the new state, and so change nothing at the start state. -/
theorem buildsIntent {t : Table} {start : Nat} {g k : Graph} {ys : List Nat}
    {p : String × List Sentence} {w : EdgeWeight} (hp : ∀ s ∈ p.2, (s.unfold t p.1).Filled)
    (hasc : g.Ascending) (hg : g.Consistent) (hs : start < g.size)
    (hk : buildIntent t true g start p.1 p.2 w = .done k ys) :
    BuildsIntent t start g k ys p w := by
  obtain ⟨E, -⟩ := enter_spec hasc hs p.1 w
  obtain ⟨hentry, hentryEdges⟩ := hg.enter hs p.1 w
  have hsize := E.exit_lt hs (List.mem_singleton_self _)
  have hstart : start < (g.enter start p.1 w).size := Nat.lt_trans hs hsize
  have hfilled : AllFilled (p.2.map (Sentence.unfold t p.1)) :=
    allFilled_iff_forall.mpr (List.forall_mem_map.mpr hp)
  rw [buildIntent_eq] at hk
  have F := buildEach_enumerates _ hfilled E.ascending hsize hk
  have hgrown : (buildEach true false (g.enter start p.1 w) g.size
      (p.2.map (Sentence.unfold t p.1))).Grown _ _ id := buildEach_grown true _ hsize
  rw [hk] at hgrown
  have G : (g.enter start p.1 w).GrowsTo g.size k ys := hgrown
  constructor
  case ascending => exact F.ascending
  case consistent => exact G.grows.consistent hentry
  case grown => exact Nat.lt_of_lt_of_le hsize F.size_le
  case exits =>
    intro y hy
    obtain ⟨hnew, hlt⟩ := G.exits y hy
    rw [size_enter] at hnew
    exact ⟨by omega, hlt⟩
  case entered => rw [G.grows.edgesFrom_eq hentry hstart (Nat.ne_of_lt hs), hentryEdges]
  case ways =>
    obtain ⟨ways, hways, hmap⟩ := F.listed
    refine ⟨ways, hways, ?_⟩
    have hlength := congrArg List.length hmap
    rwa [List.length_map, spellings, List.length_map] at hlength

theorem entersIntents_buildIntents {t : Table} {start : Nat} :
    ∀ (l : List ((String × List Sentence) × EdgeWeight)) {g h : Graph} {xs : List Nat},
      (∀ p ∈ l.map Prod.fst, ∀ s ∈ p.2, (s.unfold t p.1).Filled) →
      g.Ascending → g.Consistent → start < g.size → buildIntents t true g start l = .done h xs →
      EntersIntents t start g h xs (l.map Prod.fst)
  | [], g, h, xs, _, _, hg, _, hb => by
      rw [buildIntents] at hb
      cases hb
      exact ⟨hg, fun _ hx => (List.not_mem_nil hx).elim, [], (List.append_nil _).symm, .nil⟩
  | (p, w) :: rest, g, h, xs, hl, hasc, hg, hs, hb => by
      rw [buildIntents] at hb
      obtain ⟨k, ys, hk, hrest⟩ := Built.andThen_eq_done.mp hb
      obtain ⟨_, zs, hk', hdone⟩ := Built.andThen_eq_done.mp hrest
      cases hdone
      rw [List.map_cons, List.forall_mem_cons] at hl
      have B := buildsIntent hl.1 hasc hg hs hk
      have hsk : start < k.size := Nat.lt_trans hs B.grown
      have H := buildIntents_enumerates rest hl.2 B.ascending hsk hk'
      have I := entersIntents_buildIntents rest hl.2 B.ascending B.consistent hsk hk'
      obtain ⟨_, H'⟩ := H.frame
      obtain ⟨entries, hentries, hforall⟩ := I.entries
      refine ⟨I.consistent, ?_, Edge.entering start g.size p.1 w :: entries, ?_, .cons ?_ ?_⟩
      · intro x hx
        rcases List.mem_append.mp hx with hx | hx
        · exact (B.exits x hx).1
        · exact Nat.le_trans (Nat.le_of_lt B.grown) (I.exits_new x hx)
      · rw [hentries, B.entered, List.append_assoc, List.singleton_append]
      · obtain ⟨ways, hways, hlength⟩ := B.ways
        refine ⟨Nat.le_of_eq (Edge.target_entering ..).symm, ?_, Edge.output_entering .., ways, ?_,
          hlength⟩
        · rw [Edge.target_entering]
          exact Nat.lt_of_lt_of_le B.grown H.size_le
        · -- no way leads from this intent to the ends of later ones
          rw [Edge.target_entering]
          refine (H'.listsWays (fun y hy => (B.exits y hy).2) hways).of_subset
            (List.subset_append_left ys zs) fun z hz hzys cs ms hw => ?_
          have hz := I.exits_new z ((List.mem_append.mp hz).resolve_left hzys)
          obtain ⟨_, _, _, _, hback, -⟩ := H'.way_through hw B.grown hz
          exact Nat.not_lt_of_le hback.le hs
      · refine hforall.imp fun p e hentry => ?_
        obtain ⟨hle, he⟩ := hentry
        obtain ⟨ways, hways, hlength⟩ := he.ways
        refine ⟨Nat.le_trans (Nat.le_of_lt B.grown) hle, he.target_lt, he.output, ways, ?_, hlength⟩
        -- and none from a later intent to the ends of this one
        refine hways.of_subset (List.subset_append_right ys zs) fun y hy hyzs cs ms hw => ?_
        have hy := (B.exits y ((List.mem_append.mp hy).resolve_right hyzs)).2
        exact Nat.not_lt_of_le hw.le (Nat.lt_of_lt_of_le hy hle)

theorem Graph.consistent_initial : Graph.initial.Consistent :=
  (consistent_empty.addState none).setStart Nat.zero_lt_one

/-- Joining exits keeps a graph consistent. -/
theorem Graph.Consistent.join {g : Graph} (hg : g.Consistent) {xs : List Nat}
    (hxs : ∀ x ∈ xs, x < g.size) :
    (g.join xs).1.Consistent ∧ (g.join xs).2 < (g.join xs).1.size := by
  have hsize : g.addState.size = g.size + 1 := size_addState g none
  have hxs' : ∀ x ∈ xs, x < g.addState.size := fun x hx => by
    have := hxs x hx
    omega
  refine ⟨((hg.addState none).foldl_addEdge (by omega) hxs').1, ?_⟩
  rw [Graph.join, GrowsTo.size_foldl_addEdge, hsize]
  exact Nat.lt_succ_self _

theorem consistent_buildIntents {t : Table} {expand : Bool} {start : Nat} :
    ∀ (l : List ((String × List Sentence) × EdgeWeight)) {g h : Graph} {xs : List Nat},
      g.Consistent → start < g.size → buildIntents t expand g start l = .done h xs →
      h.Consistent ∧ g.size ≤ h.size ∧ ∀ x ∈ xs, x < h.size
  | [], g, h, xs, hg, _, hb => by
      rw [buildIntents] at hb
      cases hb
      exact ⟨hg, Nat.le_refl _, fun _ hx => (List.not_mem_nil hx).elim⟩
  | (p, w) :: rest, g, h, xs, hg, hs, hb => by
      rw [buildIntents] at hb
      obtain ⟨k, ys, hk, hrest⟩ := Built.andThen_eq_done.mp hb
      obtain ⟨_, zs, hk', hdone⟩ := Built.andThen_eq_done.mp hrest
      cases hdone
      rw [buildIntent_eq] at hk
      have hentered : g.size < (g.enter start p.1 w).size := by
        rw [size_enter]
        exact Nat.lt_succ_self _
      have hgrown : (buildEach expand false (g.enter start p.1 w) g.size
          (p.2.map (Sentence.unfold t p.1))).Grown _ _ id := buildEach_grown expand _ hentered
      rw [hk] at hgrown
      have G : (g.enter start p.1 w).GrowsTo g.size k ys := hgrown
      have hle : g.size ≤ k.size := Nat.le_trans (Nat.le_of_lt hentered) G.grows.size_le
      obtain ⟨hh, hle', hzs⟩ := consistent_buildIntents rest
        (G.grows.consistent (hg.enter hs p.1 w).1) (Nat.lt_of_lt_of_le hs hle) hk'
      refine ⟨hh, Nat.le_trans hle hle', fun x hx => ?_⟩
      rcases List.mem_append.mp hx with hx | hx
      · exact Nat.lt_of_lt_of_le (G.exits x hx).2 hle'
      · exact hzs x hx

/-- In a compiled graph, what is kept in several places agrees. -/
theorem consistent_ofSentences {l : IntentSentences} {t : Table} {o : CompileOptions} {g : Graph}
    (hg : Graph.ofSentences l t o = .ok g) : g.Consistent := by
  obtain ⟨ws, h, xs, -, hb, rfl⟩ := ofSentences_eq_ok hg
  obtain ⟨hh, -, hxs⟩ := consistent_buildIntents (l.zip ws) consistent_initial Nat.zero_lt_one hb
  obtain ⟨hjoin, hlt⟩ := hh.join hxs
  exact hjoin.setFinal hlt

/-- The edges by which a compiled graph enters the intents, one for each intent. -/
theorem entersIntents_ofSentences {l : IntentSentences} {t : Table} {o : CompileOptions}
    {g : Graph} (hg : Graph.ofSentences l t o = .ok g) (hexpand : o.expandSlots = true)
    (hfilled : ∀ p ∈ l, ∀ s ∈ p.2, (s.unfold t p.1).Filled) :
    ∃ final, g.final = some final ∧ 0 ≠ final ∧
      List.Forall₂ (fun p e => 0 < e.target ∧ EntersIntent t g [final] p e) l (g.edgesFrom 0) := by
  obtain ⟨ws, h, xs, hlength, hb, rfl⟩ := ofSentences_eq_ok hg
  have hfst := map_fst_zip_of_length_eq hlength
  have hs : 0 < Graph.initial.size := Nat.zero_lt_one
  rw [hexpand] at hb
  have H := buildIntents_enumerates (l.zip ws) (hfst.symm ▸ hfilled) ascending_initial hs hb
  have I := entersIntents_buildIntents (l.zip ws) (hfst.symm ▸ hfilled) ascending_initial
    consistent_initial hs hb
  rw [hfst] at I
  obtain ⟨entries, hentries, hforall⟩ := I.entries
  have hxs : ∀ x ∈ xs, x < h.size := fun x hx => H.exit_lt hs hx
  have hstart : 0 ∉ xs := fun hmem => Nat.not_lt_of_le (I.exits_new 0 hmem) hs
  have hedges : ((h.join xs).1.setFinal (h.join xs).2).edgesFrom 0 = entries :=
    (I.consistent.edgesFrom_join hxs hstart).trans hentries
  refine ⟨(h.join xs).2, rfl, Nat.ne_of_lt (Nat.lt_of_lt_of_le hs H.size_le), ?_⟩
  rw [hedges]
  refine hforall.imp fun p e hentry => ?_
  obtain ⟨hle, he⟩ := hentry
  obtain ⟨ways, hways, hlength⟩ := he.ways
  have hjoin := hways.join H.ascending hxs he.target_lt
  obtain ⟨-, hsize, -, -⟩ := join_spec H.ascending hxs
  refine ⟨Nat.lt_of_lt_of_le hs hle, ?_, he.output, _, ⟨hjoin.nodup, fun w => ?_⟩,
    (List.length_map _).trans hlength⟩
  · show e.target < (h.join xs).1.size
    rw [hsize]
    exact Nat.lt_succ_of_lt he.target_lt
  · -- naming the final state changes no edge
    rw [hjoin.mem_iff w]
    exact exists_congr fun x => and_congr_right fun _ =>
      ⟨fun hw => hw.congr fun _ _ => rfl, fun hw => hw.congr fun _ _ => rfl⟩

/-! ## The counts -/

theorem intentCounts_eq {t : Table} {l : IntentSentences}
    (hwhole : ∀ p ∈ l, ∀ s ∈ p.2, (Sentence.unfold t p.1 s).Whole)
    (hone : ∀ p ∈ l, ∀ s ∈ p.2, (Sentence.unfold t p.1 s).OneBodied) :
    intentCounts l t false =
      .ok (l.map fun p => (p.1, max 1 (min (readingsOfIntent t p).length Count.limit))) := by
  induction l with
  | nil => rfl
  | cons p l ih =>
      rw [List.forall_mem_cons] at hwhole hone
      have hrest := ih hwhole.2 hone.2
      rw [intentCounts] at hrest ⊢
      rw [List.mapM_cons, hrest]
      simp only [intentCount_eq hwhole.1 hone.1, List.map_cons]
      rfl

section

variable {α β γ : Type} {R : α → β → Prop}

theorem forall₂_mem_right {l : List α} {m : List β} (h : List.Forall₂ R l m) :
    List.Forall₂ (fun a b => b ∈ m ∧ R a b) l m := by
  obtain ⟨hlength, hzip⟩ := List.forall₂_iff_zip.mp h
  exact List.forall₂_iff_zip.mpr ⟨hlength, fun hmem => ⟨(List.of_mem_zip hmem).2, hzip hmem⟩⟩

theorem map_eq_map_of_forall₂ {l : List α} {m : List β} (h : List.Forall₂ R l m) {f : α → γ}
    {f' : β → γ} (hf : ∀ {a b}, R a b → f a = f' b) : l.map f = m.map f' := by
  induction h with
  | nil => rfl
  | cons hab _ ih => rw [List.map_cons, List.map_cons, hf hab, ih]

end

/-- Edges that carry the labels of intents are listed with the intents' names. -/
theorem forall₂_filterMap_intent {R : String × List Sentence → Edge → Prop}
    (hR : ∀ {p e}, R p e → e.output = (Control.intent p.1).text)
    {l : List (String × List Sentence)} {es : List Edge} (h : List.Forall₂ R l es) :
    List.Forall₂ (fun p i => i.1 = p.1 ∧ R p i.2) l
      (es.filterMap fun e => (Label.intent? e.output).map fun name => (name, e)) := by
  induction h with
  | nil => exact .nil
  | @cons p e _ _ hpe _ ih =>
      have hname : (Label.intent? e.output).map (fun name => (name, e)) = some (p.1, e) := by
        rw [hR hpe, Label.intent?_text]
        rfl
      rw [List.filterMap_cons, hname]
      exact .cons ⟨rfl, hpe⟩ ih

/-- In a graph compiled from templates in which no group is empty, with a table that has exactly
one body for every rule, the count of an intent is the number of simple paths from the start to
the final state that take its edge, as far as one hundred and twenty-eight bits go, and at least
one. -/
theorem intentCounts_eq_pathsThrough {l : IntentSentences} {t : Table} {o : CompileOptions}
    {g : Graph} (hl : ∀ p ∈ l, ∀ s ∈ p.2, s.toExpr.Filled) (ht : t.Filled) (hone : t.OneBodied)
    (hexpand : o.expandSlots = true) (hg : Graph.ofSentences l t o = .ok g) :
    (∃ final, g.start = some 0 ∧ g.final = some final ∧ g.simplePaths.Nodup ∧
      ∀ p, p ∈ g.simplePaths ↔ g.SimplePath 0 p final) ∧
    (∀ p ∈ g.simplePaths, ∀ step ∈ p, step.source ≠ step.target) ∧
    g.intentNames = l.map Prod.fst ∧
    intentCounts l t false = .ok (g.intentEdges.map fun i =>
      (i.1, max 1 (min (g.pathsThrough i.2).length (2 ^ 128 - 1)))) := by
  have hunfold : ∀ p ∈ l, ∀ s ∈ p.2,
      (Sentence.unfold t p.1 s).Filled ∧ (Sentence.unfold t p.1 s).OneBodied := by
    intro p hp s hs
    exact filled_oneBodied_unfold ht hone _ _ (hl p hp s hs)
  have hwhole : ∀ p ∈ l, ∀ s ∈ p.2, (Sentence.unfold t p.1 s).Whole := by
    obtain ⟨ws, h, xs, hlength, hb, -⟩ := ofSentences_eq_ok hg
    rw [hexpand] at hb
    have hwhole := whole_of_buildIntents (l.zip ws) hb
    rwa [map_fst_zip_of_length_eq hlength] at hwhole
  obtain ⟨final, hfinal, hne, hforall⟩ := entersIntents_ofSentences hg hexpand
    fun p hp s hs => (hunfold p hp s hs).1
  have hasc := ascending_ofSentences hg
  have hstart := start_ofSentences hg
  have hsize : 0 < g.size := by
    obtain ⟨final', hfinal', E⟩ := ofSentences_extends hg
    exact Nat.lt_of_le_of_lt (Nat.zero_le _) (E.exit_lt Nat.zero_lt_one (List.mem_singleton_self _))
  have hmem : ∀ p, p ∈ g.simplePaths ↔ g.SimplePath 0 p final := fun p =>
    mem_simplePaths hasc.valid hasc.target_lt hstart hfinal hsize hne
  have hedges := forall₂_filterMap_intent (fun h => h.2.2.output) (forall₂_mem_right hforall)
  have hintents : g.intentEdges = (g.edgesFrom 0).filterMap fun e =>
      (Label.intent? e.output).map fun name => (name, e) := by rw [intentEdges, hstart]
  rw [← hintents] at hedges
  refine ⟨⟨final, hstart, hfinal, nodup_simplePaths hasc.valid, hmem⟩,
    fun p hp => ((hmem p).mp hp).source_ne_target, ?_, ?_⟩
  · rw [intentNames]
    exact (map_eq_map_of_forall₂ hedges fun h => h.1.symm).symm
  · rw [intentCounts_eq hwhole fun p hp s hs => (hunfold p hp s hs).2]
    refine congrArg Except.ok (map_eq_map_of_forall₂ hedges ?_)
    rintro p ⟨name, e⟩ ⟨rfl, he, hlt, henters⟩
    obtain ⟨ways, hways, hlength⟩ := henters.ways
    rw [hways.length_pathsThrough hasc hstart hfinal hne he hlt, hlength]
    rfl

/-- A word that is said twice in one alternative, and a wildcard. -/
def waitSentence : Sentence :=
  ⟨"[please | please] *",
    [.seq .alternative "please | please" [.plain "please", .plain "please", .emptyWord] {} none,
      .plain wildcard]⟩

def lampAndWait : IntentSentences := [("Lamp", [lampSentence]), ("Wait", [waitSentence])]

theorem unfold_lampSentence : lampSentence.unfold lampTable "Lamp" =
    .seq .group [.word "make" {} none, .word "it" {} none,
      .rule "<Lamp.colour>"
        [.slot "colour" [.word "red" {} none, .word "green" {} none] {} none] none] {} none := by
  have hrule : lampTable.get? (Scope.keyOf { intent := "Lamp" } ⟨"<colour>", "colour", none⟩)
      = some [.slot "$colour" "colour" {} none] := rfl
  have hslot : lampTable.get? (slotKey "colour") = some [.plain "red", .plain "green"] := rfl
  simp [Sentence.unfold, Sentence.toExpr, lampSentence, unfold, unfoldAll, Expr.plain,
    unfold_rule_of_get? hrule, unfold_slot_of_get? hslot, Scope.enterRule]
  rfl

theorem unfold_waitSentence (t : Table) : waitSentence.unfold t "Wait" =
    .seq .group [.seq .alternative [.word "please" {} none, .word "please" {} none,
      .word "" {} none] {} none, .word "*" {} none] {} none := by
  simp [Sentence.unfold, Sentence.toExpr, waitSentence, unfold, unfoldAll, Expr.plain,
    Expr.emptyWord, wildcard]

theorem filled_lampTable : lampTable.Filled := by
  have hentries : ∀ entry ∈ lampTable, ∀ e ∈ entry.2, e.Filled := by decide
  exact fun key values hget => hentries _ (Table.mem_of_get? hget)

theorem oneBodied_lampTable : lampTable.OneBodied := by
  intro grammar rule bodies hget
  have hmem := Table.mem_of_get? hget
  rw [lampTable, List.mem_cons, List.mem_singleton] at hmem
  rcases hmem with heq | heq
  · rw [(Prod.mk.inj heq).2]
    rfl
  · exact (ruleKey_ne_slotKey grammar rule "colour" (Prod.mk.inj heq).1).elim

/-- Two ways to name a colour, and three to say a word twice or not at all. -/
theorem intentCounts_lampAndWait :
    ∃ g, Graph.ofSentences lampAndWait lampTable { addWeights := false } = .ok g ∧
      (∀ p ∈ lampAndWait, ∀ s ∈ p.2, s.toExpr.Filled) ∧ lampTable.Filled ∧ lampTable.OneBodied ∧
      g.intentNames = ["Lamp", "Wait"] ∧
      (g.intentEdges.map fun i => (i.1, max 1 (min (g.pathsThrough i.2).length (2 ^ 128 - 1)))) =
        [("Lamp", 2), ("Wait", 3)] := by
  have hwhole : ∀ p ∈ lampAndWait, ∀ s ∈ p.2, (Sentence.unfold lampTable p.1 s).Whole := by
    simp [lampAndWait, unfold_lampSentence, unfold_waitSentence, Tree.Whole, AllWhole]
  have hfilled : ∀ p ∈ lampAndWait, ∀ s ∈ p.2, s.toExpr.Filled := by decide
  have hweights : edgeWeights lampAndWait lampTable { addWeights := false } =
      .ok [none, none] := rfl
  obtain ⟨g, hg⟩ := exists_ofSentences_of_whole rfl hweights hwhole
  obtain ⟨-, -, hnames, hcounts⟩ :=
    intentCounts_eq_pathsThrough hfilled filled_lampTable oneBodied_lampTable rfl hg
  have heval : intentCounts lampAndWait lampTable false = .ok [("Lamp", 2), ("Wait", 3)] := by
    simp only [intentCounts, lampAndWait, List.mapM_cons, List.mapM_nil, intentCount,
      List.map_cons, List.map_nil, unfold_lampSentence, unfold_waitSentence]
    rfl
  exact ⟨g, hg, hfilled, filled_lampTable, oneBodied_lampTable, hnames,
    Except.ok.inj (hcounts.symm.trans heval)⟩

end Utterance
