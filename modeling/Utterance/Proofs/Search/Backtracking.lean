import Mathlib.Data.List.Pairwise
import Mathlib.Logic.Function.Basic
import Mathlib.Logic.Function.Iterate
import Utterance.Proofs.Graph.History
import Utterance.Proofs.Search.Simple

/-!
# Simple paths by backtracking

The simple paths of a graph come in depth first order: where two of them part, the one that
takes the earlier edge comes first (`pairwise_simpleFrom`).  A limit leaves the first of
them (`simplePaths_some`).

The search can be run as a loop that keeps the states on the path marked, the path so far,
and for every state on it how many of its edges have been tried (`Descent`).  Such a loop
works off the edges of a state and then leaves the state, and in between it has found the
paths through that state and put everything else back (`turns_state`).  There are no more
states on a path than in the graph, so it always gets that far.  With a limit the loop does
the same as without, as long as there is room (`turns_some`), and so it ends with the first
of the simple paths (`simplePaths_lists_simplePaths`).
-/

namespace Utterance

namespace Graph

variable {g : Graph} {final bound s start : Nat} {p : Path}

/-! ## Depth first order -/

/-- Both steps leave one state, and the edge of the first stands before that of the
second. -/
def Before (g : Graph) (a b : PathStep) : Prop :=
  a.source = b.source ∧ ∃ i j : Nat, i < j ∧
    (g.edgesFrom a.source)[i]?.map Edge.target = some a.target ∧
    (g.edgesFrom a.source)[j]?.map Edge.target = some b.target

theorem pairwise_edgesFrom (g : Graph) (s : Nat) :
    (g.edgesFrom s).Pairwise fun e f => g.Before ⟨s, e.target, []⟩ ⟨s, f.target, []⟩ := by
  refine List.pairwise_iff_getElem.mpr fun i j hi hj hlt => ⟨rfl, i, j, hlt, ?_, ?_⟩
  · rw [List.getElem?_eq_getElem hi]
    rfl
  · rw [List.getElem?_eq_getElem hj]
    rfl

theorem eq_cons_of_mem_simpleVia {passed : List Nat} {e : Edge}
    (hp : p ∈ g.simpleVia final bound passed s e) : ∃ q, p = ⟨s, e.target, []⟩ :: q :=
  List.head?_eq_some_iff.mp (head?_of_mem_simpleVia hp)

/-- Of two simple paths that are listed, the first takes the earlier edge where they part. -/
theorem pairwise_simpleFrom {passed : List Nat} :
    (g.simpleFrom final bound passed s none).Pairwise (List.Lex g.Before) := by
  induction bound generalizing passed s with
  | zero => exact List.Pairwise.nil
  | succ bound ih =>
      rw [simpleFrom_succ, List.pairwise_flatMap]
      refine ⟨fun e _ => ?_, (g.pairwise_edgesFrom s).imp fun {e f} hbefore p hp q hq => ?_⟩
      · rw [simpleVia]
        split
        · exact List.Pairwise.nil
        · split
          · exact List.pairwise_singleton _ _
          · exact List.pairwise_map.mpr (ih.imp .cons)
      · obtain ⟨p, rfl⟩ := eq_cons_of_mem_simpleVia hp
        obtain ⟨q, rfl⟩ := eq_cons_of_mem_simpleVia hq
        exact .rel hbefore

/-! ## A limit -/

theorem collect_some {α β : Type} {f : Option Nat → α → List β} {l : List α}
    (hf : ∀ a ∈ l, ∀ n, 1 ≤ n → f (some n) a = (f none a).take n) (n : Nat) :
    collect f (some n) l = (l.flatMap (f none)).take n := by
  induction l generalizing n with
  | nil => rw [List.flatMap_nil, List.take_nil, collect]
  | cons a l ih =>
      obtain ⟨ha, hl⟩ := List.forall_mem_cons.mp hf
      cases n with
      | zero => rfl
      | succ n =>
          rw [collect, ha _ (Nat.le_add_left 1 n), ih hl, List.flatMap_cons, List.take_append,
            List.length_take]
          · congr 2
            omega
          · exact Nat.succ_ne_zero n

theorem simpleFrom_some {passed : List Nat} (n : Nat) :
    g.simpleFrom final bound passed s (some n) =
      (g.simpleFrom final bound passed s none).take n := by
  induction bound generalizing passed s n with
  | zero => exact List.take_nil.symm
  | succ bound ih =>
      rw [simpleFrom_succ, simpleFrom]
      refine collect_some (fun e _ n hn => ?_) n
      split
      · exact List.take_nil.symm
      · split
        · exact (List.take_of_length_le hn).symm
        · rw [ih, List.map_take]

theorem simplePaths_some (g : Graph) (n : Nat) :
    g.simplePaths (some n) = g.simplePaths.take n := by
  unfold simplePaths
  split
  · exact simpleFrom_some n
  · exact List.take_nil.symm

end Graph

/-! ## The search as a loop -/

/-- A depth first search in progress. -/
structure Descent where
  found : List Path
  /-- The states on the path. -/
  marked : Nat → Bool
  path : Path
  /-- The states on the path again, the last one first, and how many edges out of each have
  been tried. -/
  opened : List (Nat × Nat)

namespace Graph

variable {g : Graph} {final bound s start : Nat} {p : Path}

/-- One iteration.  The loop is left when nothing is open, or when the limit is reached. -/
def descend (g : Graph) (final : Nat) (limit : Option Nat) (d : Descent) : Descent :=
  match d.opened with
  | [] => d
  | (s, tried) :: outer =>
    if limit.any (· ≤ d.found.length) then { d with opened := [] }
    else
      match (g.edgesFrom s)[tried]? with
      | none =>
        { d with
          marked := Function.update d.marked s false
          path := d.path.dropLast
          opened := outer }
      | some e =>
        if d.marked e.target then { d with opened := (s, tried + 1) :: outer }
        else if e.target == final then
          { d with
            found := d.found ++ [d.path ++ [⟨s, e.target, []⟩]]
            opened := (s, tried + 1) :: outer }
        else
          { d with
            marked := Function.update d.marked e.target true
            path := d.path ++ [⟨s, e.target, []⟩]
            opened := (e.target, 0) :: (s, tried + 1) :: outer }

/-- The start state alone is on the path, and none of its edges has been tried. -/
def descent (start : Nat) : Descent := ⟨[], (· == start), [], [(start, 0)]⟩

section

variable {found : List Path} {marked : Nat → Bool} {path : Path} {tried : Nat}
  {outer : List (Nat × Nat)} {e : Edge}

theorem descend_exhausted (htried : (g.edgesFrom s)[tried]? = none) :
    g.descend final none ⟨found, marked, path, (s, tried) :: outer⟩ =
      ⟨found, Function.update marked s false, path.dropLast, outer⟩ := by
  simp [descend, htried]

theorem descend_marked (htried : (g.edgesFrom s)[tried]? = some e)
    (hmarked : marked e.target = true) :
    g.descend final none ⟨found, marked, path, (s, tried) :: outer⟩ =
      ⟨found, marked, path, (s, tried + 1) :: outer⟩ := by
  simp [descend, htried, hmarked]

theorem descend_final (htried : (g.edgesFrom s)[tried]? = some e)
    (hmarked : marked e.target = false) (hfinal : e.target = final) :
    g.descend final none ⟨found, marked, path, (s, tried) :: outer⟩ =
      ⟨found ++ [path ++ [⟨s, e.target, []⟩]], marked, path, (s, tried + 1) :: outer⟩ := by
  subst hfinal
  simp [descend, htried, hmarked]

theorem descend_open (htried : (g.edgesFrom s)[tried]? = some e)
    (hmarked : marked e.target = false) (hfinal : e.target ≠ final) :
    g.descend final none ⟨found, marked, path, (s, tried) :: outer⟩ =
      ⟨found, Function.update marked e.target true, path ++ [⟨s, e.target, []⟩],
        (e.target, 0) :: (s, tried + 1) :: outer⟩ := by
  simp [descend, htried, hmarked, hfinal]

/-- If the loop works off each state that an edge opens, it works off the edges of a state that
have not been tried, and leaves the state.  It has found the paths through these edges,
behind the path on which it came. -/
theorem turns_edges {passed : List Nat} (hmarked : ∀ x, marked x = true ↔ x ∈ passed)
    (hopen : ∀ e ∈ g.edgesFrom s, marked e.target = false → ∀ found path outer,
      ∃ n, (g.descend final none)^[n]
          ⟨found, Function.update marked e.target true, path, (e.target, 0) :: outer⟩ =
        ⟨found ++ (g.simpleFrom final bound (e.target :: passed) e.target none).map (path ++ ·),
          marked, path.dropLast, outer⟩)
    (found : List Path) (path : Path) (tried : Nat) (outer : List (Nat × Nat)) :
    ∃ n, (g.descend final none)^[n] ⟨found, marked, path, (s, tried) :: outer⟩ =
      ⟨found ++ (((g.edgesFrom s).drop tried).flatMap
          (g.simpleVia final bound passed s)).map (path ++ ·),
        Function.update marked s false, path.dropLast, outer⟩ := by
  generalize hrest : (g.edgesFrom s).drop tried = rest
  induction rest generalizing tried found with
  | nil =>
      have htried : (g.edgesFrom s)[tried]? = none :=
        List.getElem?_eq_none (List.drop_eq_nil_iff.mp hrest)
      refine ⟨1, ?_⟩
      rw [Function.iterate_one, descend_exhausted htried, List.flatMap_nil, List.map_nil,
        List.append_nil]
  | cons e rest ih =>
      have htried : (g.edgesFrom s)[tried]? = some e := by
        rw [← Nat.add_zero tried, ← List.getElem?_drop, hrest]
        rfl
      have hlater : (g.edgesFrom s).drop (tried + 1) = rest := by
        rw [← List.drop_drop, hrest]
        rfl
      have hvia : g.simpleVia final bound passed s e =
          if marked e.target then [] else if e.target == final then [[⟨s, e.target, []⟩]]
          else (simpleFrom g final bound (e.target :: passed) e.target none).map
            (⟨s, e.target, []⟩ :: ·) := by
        have hpassed : passed.contains e.target = marked e.target := by
          rw [Bool.eq_iff_iff, List.contains_iff_mem, hmarked]
        rw [simpleVia, hpassed]
      rw [List.flatMap_cons, List.map_append, ← List.append_assoc, hvia]
      cases hnew : marked e.target with
      | true =>
          obtain ⟨n, hn⟩ := ih found _ hlater
          refine ⟨n + 1, ?_⟩
          rw [Function.iterate_succ_apply, descend_marked htried hnew, hn, if_pos rfl,
            List.map_nil, List.append_nil]
      | false =>
          rw [if_neg Bool.false_ne_true]
          by_cases hfinal : e.target = final
          · obtain ⟨n, hn⟩ := ih (found ++ [path ++ [⟨s, e.target, []⟩]]) _ hlater
            refine ⟨n + 1, ?_⟩
            rw [Function.iterate_succ_apply, descend_final htried hnew hfinal, hn,
              if_pos (beq_iff_eq.mpr hfinal), List.map_singleton]
          · -- the loop goes down to the target, and comes back to this state
            obtain ⟨m, hm⟩ := hopen e (List.mem_of_getElem? htried) hnew found
              (path ++ [⟨s, e.target, []⟩]) ((s, tried + 1) :: outer)
            rw [List.dropLast_concat] at hm
            obtain ⟨n, hn⟩ := ih (found ++ (simpleFrom g final bound
              (e.target :: passed) e.target none).map (path ++ [⟨s, e.target, []⟩] ++ ·)) _ hlater
            refine ⟨n + (m + 1), ?_⟩
            rw [Function.iterate_add_apply, Function.iterate_succ_apply,
              descend_open htried hnew hfinal, hm, hn, if_neg (mt beq_iff_eq.mp hfinal),
              List.map_map]
            simp [Function.comp_def]

/-- The loop works off every state that it opens: on the path there are no more states than
in the graph. -/
theorem turns_state (hin : ∀ a, ∀ e ∈ g.edgesFrom a, e.target < g.size) {passed : List Nat}
    (hnodup : passed.Nodup) (hlt : ∀ x ∈ passed, x < g.size)
    (hbound : g.size ≤ bound + passed.length) (hmarked : ∀ x, marked x = true ↔ x ∈ passed)
    (found : List Path) (path : Path) (tried : Nat) (outer : List (Nat × Nat)) :
    ∃ n, (g.descend final none)^[n] ⟨found, marked, path, (s, tried) :: outer⟩ =
      ⟨found ++ (((g.edgesFrom s).drop tried).flatMap
          (g.simpleVia final bound passed s)).map (path ++ ·),
        Function.update marked s false, path.dropLast, outer⟩ := by
  -- the bound stands in for the states that are not on the path
  induction bound using Nat.strongRecOn generalizing passed s marked found path tried outer with
  | ind bound ih =>
      refine turns_edges hmarked (fun e he hnew found path outer => ?_) found path tried outer
      have hfresh : e.target ∉ passed := by
        rw [← hmarked, hnew]
        exact Bool.false_ne_true
      have hnodup' : (e.target :: passed).Nodup := List.nodup_cons.mpr ⟨hfresh, hnodup⟩
      have hlt' : ∀ x ∈ e.target :: passed, x < g.size :=
        List.forall_mem_cons.mpr ⟨hin s e he, hlt⟩
      have hlength : passed.length + 1 ≤ g.size := length_le_of_nodup hnodup' hlt'
      obtain ⟨inner, rfl⟩ : ∃ inner, bound = inner + 1 := ⟨bound - 1, by omega⟩
      have hmarked' : ∀ x, Function.update marked e.target true x = true ↔
          x ∈ e.target :: passed := by
        intro x
        rw [Function.update_apply, List.mem_cons, ← hmarked]
        by_cases hx : x = e.target <;> simp [hx]
      have hback : Function.update (Function.update marked e.target true) e.target false =
          marked := by
        rw [Function.update_idem, ← hnew, Function.update_eq_self]
      obtain ⟨n, hn⟩ := ih inner (Nat.lt_succ_self inner) hnodup' hlt'
        (by rw [List.length_cons]; omega) hmarked' found path 0 outer
      rw [hback, List.drop_zero, ← simpleFrom_succ] at hn
      exact ⟨n, hn⟩

end

/-! ## With a limit -/

theorem descend_some {k : Nat} {d : Descent} (hroom : d.found.length < k) :
    g.descend final (some k) d = g.descend final none d := by
  unfold descend
  have hsome : (some k).any (· ≤ d.found.length) = false := by simpa using hroom
  rw [hsome]
  rfl

theorem descend_full {k : Nat} {d : Descent} (hfull : k ≤ d.found.length) :
    g.descend final (some k) d = { d with opened := [] } := by
  unfold descend
  split
  next hopened => rw [← hopened]
  next => rw [if_pos (by simpa using hfull)]

/-- One iteration finds one path at most. -/
theorem found_descend (g : Graph) (final : Nat) (d : Descent) :
    ∃ l, (g.descend final none d).found = d.found ++ l ∧ l.length ≤ 1 := by
  have hsame : ∃ l, d.found = d.found ++ l ∧ l.length ≤ 1 :=
    ⟨[], (List.append_nil _).symm, Nat.zero_le 1⟩
  unfold descend
  split
  · exact hsame
  · rw [Option.any_none, if_neg Bool.false_ne_true]
    split
    · exact hsame
    · split
      · exact hsame
      · split
        · exact ⟨_, rfl, Nat.le_refl 1⟩
        · exact hsame

theorem found_prefix_turns (n : Nat) (d : Descent) :
    d.found <+: ((g.descend final none)^[n] d).found := by
  induction n generalizing d with
  | zero => exact List.prefix_rfl
  | succ n ih =>
      obtain ⟨l, hl, -⟩ := g.found_descend final d
      exact (hl ▸ List.prefix_append d.found l).trans (ih _)

/-- As long as there is room, a loop with a limit does what the one without does. -/
theorem turns_some {n k : Nat} {d : Descent} (hroom : d.found.length ≤ k)
    (hend : ((g.descend final none)^[n] d).opened = []) :
    ∃ m, ((g.descend final (some k))^[m] d).opened = [] ∧
      ((g.descend final (some k))^[m] d).found = ((g.descend final none)^[n] d).found.take k := by
  induction n generalizing d with
  | zero => exact ⟨0, hend, (List.take_of_length_le hroom).symm⟩
  | succ n ih =>
      rcases Nat.lt_or_eq_of_le hroom with hlt | rfl
      · obtain ⟨l, hl, hone⟩ := g.found_descend final d
        have hroom' : (g.descend final none d).found.length ≤ k := by
          rw [hl, List.length_append]
          omega
        obtain ⟨m, hm⟩ := ih hroom' hend
        refine ⟨m + 1, ?_⟩
        rwa [Function.iterate_succ_apply, Function.iterate_succ_apply, descend_some hlt]
      · refine ⟨1, ?_⟩
        rw [Function.iterate_one, descend_full (Nat.le_refl _)]
        exact ⟨rfl, List.prefix_iff_eq_take.mp (found_prefix_turns (n + 1) d)⟩

/-! ## The whole of it -/

/-- The loop ends, with a limit or without, and then it has found the paths that are listed. -/
theorem exists_turns_descent (hg : g.Consistent) (hstart : g.start = some start)
    (hfinal : g.final = some final) (limit : Option Nat) :
    ∃ n, ((g.descend final limit)^[n] (descent start)).opened = [] ∧
      ((g.descend final limit)^[n] (descent start)).found = g.simplePaths limit := by
  have hsize : start < g.size := hg.start_lt start hstart
  obtain ⟨bound, hbound⟩ : ∃ bound, g.size = bound + 1 := ⟨g.size - 1, by omega⟩
  have hpaths : g.simplePaths = (g.edgesFrom start).flatMap
      (g.simpleVia final bound [start] start) := by
    rw [simplePaths, hstart, hfinal]
    simp only
    rw [hbound, simpleFrom_succ]
  have hturns : ∃ n, (g.descend final none)^[n] (descent start) =
      ⟨g.simplePaths, Function.update (· == start) start false, [], []⟩ := by
    have hmarked : ∀ x, (x == start) = true ↔ x ∈ [start] := fun x => by
      rw [beq_iff_eq, List.mem_singleton]
    obtain ⟨n, hn⟩ := turns_state (fun _ _ => hg.target_lt) (List.nodup_singleton start)
      (List.forall_mem_singleton.mpr hsize) (Nat.le_of_eq hbound) hmarked [] [] 0 []
    refine ⟨n, hn.trans ?_⟩
    rw [List.drop_zero, ← hpaths, List.nil_append]
    simp only [List.nil_append, List.map_id', List.dropLast_nil]
  obtain ⟨n, hn⟩ := hturns
  cases limit with
  | none => exact ⟨n, by rw [hn], by rw [hn]⟩
  | some k =>
      have hopened : ((g.descend final none)^[n] (descent start)).opened = [] := by rw [hn]
      obtain ⟨m, hm⟩ := turns_some (Nat.zero_le k) hopened
      rw [hn, ← simplePaths_some] at hm
      exact ⟨m, hm⟩

/-- The simple paths from the start to the final state are listed, each once and in depth first
order; a limit leaves the first of them; and the loop ends with what is listed. -/
theorem simplePaths_lists_simplePaths (hg : g.Consistent) (hstart : g.start = some start)
    (hfinal : g.final = some final) (hne : start ≠ final) :
    (∀ p, p ∈ g.simplePaths ↔ g.SimplePath start p final) ∧ g.simplePaths.Nodup ∧
      g.simplePaths.Pairwise (List.Lex g.Before) ∧
      (∀ k, g.simplePaths (some k) = g.simplePaths.take k) ∧
      ∀ limit, ∃ n, ((g.descend final limit)^[n] (descent start)).opened = [] ∧
        ((g.descend final limit)^[n] (descent start)).found = g.simplePaths limit := by
  refine ⟨fun p => mem_simplePaths hg.valid (fun _ _ => hg.target_lt) hstart hfinal
    (hg.start_lt start hstart) hne, nodup_simplePaths hg.valid, ?_, g.simplePaths_some,
    exists_turns_descent hg hstart hfinal⟩
  unfold simplePaths
  split
  · exact pairwise_simpleFrom
  · exact List.Pairwise.nil

end Graph

/-- A circle, two loops, a dead end and a state that nothing leads to. -/
def mazeCalls : List GraphCall :=
  [.addState none, .addState none, .addState none, .addState none, .addState none, .addState none,
    .setStart 0, .setFinal 3, .addEdge 0 1 "a" "a", .addEdge 1 0 "b" "b", .addEdge 1 1 "*" "*",
    .addEdge 0 2 "c" "c", .addEdge 1 2 "d" "d", .addEdge 2 1 "e" "e", .addEdge 2 3 "f" "f",
    .addEdge 1 3 "g" "g", .addEdge 2 4 "h" "h", .addEdge 4 4 "i" "i", .addEdge 5 3 "j" "j"]

def mazeGraph : Graph := mazeCalls.foldl GraphCall.apply {}

theorem consistent_mazeGraph : mazeGraph.Consistent :=
  (Graph.History.empty.calls (by decide : GraphCall.AllFit {} mazeCalls)).consistent

theorem simplePaths_mazeGraph :
    mazeGraph.Consistent ∧ mazeGraph.start = some 0 ∧ mazeGraph.final = some 3 ∧ 0 ≠ 3 ∧
      mazeGraph.simplePaths.map (·.map PathStep.target) =
        [[1, 2, 3], [1, 3], [2, 1, 3], [2, 3]] ∧
      mazeGraph.simplePaths.Nodup ∧
      mazeGraph.simplePaths (some 2) = mazeGraph.simplePaths.take 2 ∧
      ∃ n, ((mazeGraph.descend 3 none)^[n] (Graph.descent 0)).found = mazeGraph.simplePaths := by
  have hstart : mazeGraph.start = some 0 := by decide
  have hfinal : mazeGraph.final = some 3 := by decide
  have hpaths : mazeGraph.simplePaths.map (·.map PathStep.target) =
      [[1, 2, 3], [1, 3], [2, 1, 3], [2, 3]] := by decide
  obtain ⟨-, hnodup, -, hlimit, hloop⟩ :=
    Graph.simplePaths_lists_simplePaths consistent_mazeGraph hstart hfinal (by decide)
  obtain ⟨n, -, hfound⟩ := hloop none
  exact ⟨consistent_mazeGraph, hstart, hfinal, by decide, hpaths, hnodup, hlimit 2, n, hfound⟩

end Utterance
