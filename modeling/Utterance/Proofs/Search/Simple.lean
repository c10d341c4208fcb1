import Utterance.Proofs.Graph.Way
import Utterance.Proofs.Search.Follows
import Utterance.Search.Simple

/-!
# Simple paths, all of them

The depth first search lists exactly the paths that come through no state twice, each of them
once (`mem_simplePaths`, `nodup_simplePaths`).  The states that have been passed are what the
search carries along; the bound on its steps is never reached, as there are no more states
than that.

In an ascending graph a simple path takes no loop, so it is a way, and the simple paths
through an edge out of the start state are the ways from where this edge leads
(`length_pathsThrough`).
-/

namespace Utterance

/-- Nothing is matched, whatever the edge hears. -/
def Unmatched (_ : Edge) (matched : List String) : Prop := matched = []

/-- The path takes an edge between the states of this one. -/
def Path.uses (p : Path) (e : Edge) : Bool :=
  p.any fun step => step.source == e.source && step.target == e.target

theorem collect_none {α β : Type} (f : Option Nat → α → List β) (l : List α) :
    collect f none l = l.flatMap (f none) := by
  induction l with
  | nil => rfl
  | cons a l ih => rw [collect, ih, List.flatMap_cons]

namespace Graph

/-- A path that matches nothing and comes through no state twice. -/
structure SimplePath (g : Graph) (a : Nat) (p : Path) (b : Nat) : Prop where
  follows : g.Follows Unmatched a p b
  nodup : (a :: p.map PathStep.target).Nodup

/-- The simple paths that take an edge. -/
def pathsThrough (g : Graph) (e : Edge) : List Path := g.simplePaths.filter (·.uses e)

variable {g : Graph} {R : Edge → List String → Prop} {a b c final bound s start : Nat} {p q : Path}

namespace Follows

/-- A path that is not empty comes to its end. -/
theorem mem_targets (hp : g.Follows R a p b) (hne : p ≠ []) : b ∈ p.map PathStep.target := by
  induction hp with
  | nil => exact (hne rfl).elim
  | @cons a c b e matched q _ _ hq ih =>
      rw [List.map_cons, List.mem_cons]
      by_cases hnil : q = []
      · subst hnil
        cases hq
        exact .inl rfl
      · exact .inr (ih hnil)

theorem target_lt (hin : ∀ a, ∀ e ∈ g.edgesFrom a, e.target < g.size) (hg : g.Valid)
    (hp : g.Follows R a p b) : ∀ x ∈ p.map PathStep.target, x < g.size := by
  induction hp with
  | nil => exact fun _ hx => (List.not_mem_nil hx).elim
  | cons he _ _ ih =>
      obtain ⟨-, rfl⟩ := hg.of_edge? he
      rw [List.map_cons, List.forall_mem_cons]
      exact ⟨hin _ _ (hg.mem_edgesFrom.mpr he), ih⟩

/-- A step of a path starts at the first state or at one that the path has come to. -/
theorem source_mem (hp : g.Follows R a p b) :
    ∀ step ∈ p, step.source ∈ a :: p.map PathStep.target := by
  induction hp with
  | nil => exact fun _ h => (List.not_mem_nil h).elim
  | cons _ _ _ ih =>
      rw [List.forall_mem_cons]
      refine ⟨List.mem_cons_self, fun step hstep => List.mem_cons_of_mem _ ?_⟩
      rw [List.map_cons]
      exact ih step hstep

/-- A path that matches nothing is determined by the states that it comes to. -/
theorem eq_of_unmatched (hp : g.Follows Unmatched a p b) (hq : g.Follows Unmatched a q c)
    (h : p.map PathStep.target = q.map PathStep.target) : p = q := by
  induction hp generalizing q with
  | nil => exact (List.map_eq_nil_iff.mp h.symm).symm
  | cons _ hmatched _ ih =>
      cases hq with
      | nil => cases h
      | cons _ hmatched' hq =>
          obtain ⟨rfl, htargets⟩ := List.cons.inj h
          obtain rfl := hmatched
          obtain rfl := hmatched'
          rw [ih hq htargets]

end Follows

/-! ## What the search lists -/

/-- The simple paths to `final` that begin with an edge. -/
def simpleVia (g : Graph) (final bound : Nat) (passed : List Nat) (s : Nat) (e : Edge) :
    List Path :=
  if passed.contains e.target then []
  else if e.target == final then [[⟨s, e.target, []⟩]]
  else (simpleFrom g final bound (e.target :: passed) e.target none).map (⟨s, e.target, []⟩ :: ·)

theorem simpleFrom_succ (g : Graph) (final bound : Nat) (passed : List Nat) (s : Nat) :
    g.simpleFrom final (bound + 1) passed s none =
      (g.edgesFrom s).flatMap (g.simpleVia final bound passed s) := by
  rw [simpleFrom, collect_none]
  rfl

/-- The search lists the paths through new states that are short enough. -/
theorem mem_simpleFrom (hg : g.Valid) {passed : List Nat} :
    p ∈ g.simpleFrom final bound passed s none ↔
      p ≠ [] ∧ p.length ≤ bound ∧ g.Follows Unmatched s p final ∧
        (p.map PathStep.target).Nodup ∧ ∀ x ∈ p.map PathStep.target, x ∉ passed := by
  induction bound generalizing passed s p with
  | zero =>
      rw [simpleFrom]
      refine iff_of_false List.not_mem_nil ?_
      rintro ⟨hne, hlength, -⟩
      exact hne (List.length_eq_zero_iff.mp (Nat.le_zero.mp hlength))
  | succ bound ih =>
      rw [simpleFrom_succ, List.mem_flatMap]
      constructor
      · rintro ⟨e, he, hp⟩
        have hedge := hg.mem_edgesFrom.mp he
        rw [simpleVia] at hp
        split at hp
        · exact (List.not_mem_nil hp).elim
        next hnew =>
          rw [List.contains_iff_mem] at hnew
          split at hp
          next hfinal =>
            obtain rfl := List.mem_singleton.mp hp
            rw [← eq_of_beq hfinal]
            exact ⟨List.cons_ne_nil _ _, Nat.succ_le_succ (Nat.zero_le _), .single hedge rfl,
              List.nodup_singleton _, List.forall_mem_singleton.mpr hnew⟩
          next =>
            obtain ⟨q, hq, rfl⟩ := List.mem_map.mp hp
            obtain ⟨-, hlength, hfollows, hnodup, hpassed⟩ := ih.mp hq
            simp only [List.mem_cons, not_or] at hpassed
            refine ⟨List.cons_ne_nil _ _, Nat.succ_le_succ hlength, .cons hedge rfl hfollows,
              List.nodup_cons.mpr ⟨fun hmem => (hpassed _ hmem).1 rfl, hnodup⟩, ?_⟩
            exact List.forall_mem_cons.mpr ⟨hnew, fun x hx => (hpassed x hx).2⟩
      · rintro ⟨hne, hlength, hfollows, hnodup, hpassed⟩
        cases hfollows with
        | nil => exact (hne rfl).elim
        | @cons _ b _ e matched q hedge hmatched hfollows =>
            obtain ⟨-, rfl⟩ := hg.of_edge? hedge
            obtain rfl := hmatched
            obtain ⟨hnew, hpassed⟩ := List.forall_mem_cons.mp hpassed
            obtain ⟨hfresh, hnodup⟩ := List.nodup_cons.mp hnodup
            refine ⟨e, hg.mem_edgesFrom.mpr hedge, ?_⟩
            rw [simpleVia, if_neg (by rwa [List.contains_iff_mem])]
            split
            next hfinal =>
              -- the path has come to its end, and it does not come there again
              have hnil : q = [] := by
                by_contra hq
                exact hfresh (eq_of_beq hfinal ▸ hfollows.mem_targets hq)
              rw [hnil]
              exact List.mem_singleton_self _
            next hfinal =>
              have hq : q ≠ [] := by
                rintro rfl
                cases hfollows
                exact hfinal (beq_self_eq_true _)
              refine List.mem_map_of_mem (ih.mpr ⟨hq, Nat.le_of_succ_le_succ hlength, hfollows,
                hnodup, fun x hx => ?_⟩)
              rw [List.mem_cons, not_or]
              exact ⟨fun heq => hfresh (heq ▸ hx), hpassed x hx⟩

theorem head?_of_mem_simpleVia {passed : List Nat} {e : Edge}
    (hp : p ∈ g.simpleVia final bound passed s e) : p.head? = some ⟨s, e.target, []⟩ := by
  rw [simpleVia] at hp
  split at hp
  · exact (List.not_mem_nil hp).elim
  · split at hp
    · rw [List.mem_singleton.mp hp]
      rfl
    · obtain ⟨q, -, rfl⟩ := List.mem_map.mp hp
      rfl

theorem nodup_simpleFrom (hg : g.Valid) {passed : List Nat} :
    (g.simpleFrom final bound passed s none).Nodup := by
  induction bound generalizing passed s with
  | zero =>
      rw [simpleFrom]
      exact List.nodup_nil
  | succ bound ih =>
      rw [simpleFrom_succ, List.nodup_flatMap]
      refine ⟨fun e _ => ?_, ?_⟩
      · rw [simpleVia]
        split
        · exact List.nodup_nil
        · split
          · exact List.nodup_singleton _
          · exact ih.map fun _ _ h => (List.cons.inj h).2
      · have htargets := List.pairwise_map.mp (hg.single s)
        refine htargets.imp fun {e f} hne => List.disjoint_left.mpr fun p hp hp' => hne ?_
        have hheads := (head?_of_mem_simpleVia hp).symm.trans (head?_of_mem_simpleVia hp')
        exact congrArg PathStep.target (Option.some.inj hheads)

/-- There are no more different states than states. -/
theorem length_le_of_nodup {l : List Nat} {n : Nat} (hl : l.Nodup) (hlt : ∀ x ∈ l, x < n) :
    l.length ≤ n := by
  have hle := (hl.subperm fun x hx => List.mem_range.mpr (hlt x hx)).length_le
  rwa [List.length_range] at hle

/-- A path through different states takes fewer steps than there are states. -/
theorem SimplePath.length_lt (hp : g.SimplePath a p b) (hg : g.Valid)
    (hin : ∀ a, ∀ e ∈ g.edgesFrom a, e.target < g.size) (ha : a < g.size) : p.length < g.size := by
  have hle := length_le_of_nodup hp.nodup
    (List.forall_mem_cons.mpr ⟨ha, hp.follows.target_lt hin hg⟩)
  rwa [List.length_cons, List.length_map] at hle

/-- The search lists the simple paths from the start to the final state. -/
theorem mem_simplePaths (hg : g.Valid) (hin : ∀ a, ∀ e ∈ g.edgesFrom a, e.target < g.size)
    (hstart : g.start = some start) (hfinal : g.final = some final) (hlt : start < g.size)
    (hne : start ≠ final) : p ∈ g.simplePaths ↔ g.SimplePath start p final := by
  unfold simplePaths
  rw [hstart, hfinal]
  simp only
  rw [mem_simpleFrom hg]
  constructor
  · rintro ⟨-, -, hfollows, hnodup, hpassed⟩
    refine ⟨hfollows, List.nodup_cons.mpr ⟨fun hmem => ?_, hnodup⟩⟩
    exact hpassed start hmem (List.mem_singleton_self _)
  · intro hp
    obtain ⟨hfresh, hnodup⟩ := List.nodup_cons.mp hp.nodup
    refine ⟨?_, Nat.le_of_lt (hp.length_lt hg hin hlt), hp.follows, hnodup, fun x hx hmem => ?_⟩
    · rintro rfl
      cases hp.follows
      exact hne rfl
    · obtain rfl := List.mem_singleton.mp hmem
      exact hfresh hx

/-- No path is listed twice. -/
theorem nodup_simplePaths (hg : g.Valid) : g.simplePaths.Nodup := by
  unfold simplePaths
  split
  · exact nodup_simpleFrom hg
  · exact List.nodup_nil

/-! ## Simple paths in ascending graphs -/

theorem Way.lt_of_mem {cs : List Nat} {ms : List Mark} (hw : g.Way a cs ms b) :
    ∀ x ∈ cs, a < x := by
  induction hw with
  | refl => exact fun _ hx => (List.not_mem_nil hx).elim
  | step _ hlt _ ih =>
      rw [List.forall_mem_cons]
      exact ⟨hlt, fun x hx => Nat.lt_trans hlt (ih x hx)⟩

/-- For every way there is a path that matches nothing. -/
theorem Way.exists_simplePath {cs : List Nat} {ms : List Mark} (hw : g.Way a cs ms b) :
    ∃ p, g.SimplePath a p b ∧ p.map PathStep.target = cs := by
  induction hw with
  | refl a => exact ⟨[], ⟨.nil a, List.nodup_singleton a⟩, rfl⟩
  | @step a b c m cs ms hm hlt hw ih =>
      obtain ⟨p, hp, rfl⟩ := ih
      obtain ⟨e, he, -⟩ := exists_edge? hm
      refine ⟨⟨a, b, []⟩ :: p, ⟨.cons he rfl hp.follows, ?_⟩, rfl⟩
      refine List.nodup_cons.mpr ⟨fun hmem => ?_, hp.nodup⟩
      rw [List.map_cons, List.mem_cons] at hmem
      rcases hmem with rfl | hmem
      · exact Nat.lt_irrefl _ hlt
      · exact Nat.lt_asymm hlt (hw.lt_of_mem a hmem)

/-- A simple path takes no loop. -/
theorem SimplePath.source_ne_target (hp : g.SimplePath a p b) :
    ∀ step ∈ p, step.source ≠ step.target := by
  obtain ⟨hfollows, hnodup⟩ := hp
  induction hfollows with
  | nil => exact fun _ hstep => (List.not_mem_nil hstep).elim
  | cons _ _ _ ih =>
      rw [List.map_cons] at hnodup
      obtain ⟨hfresh, hnodup⟩ := List.nodup_cons.mp hnodup
      rw [List.forall_mem_cons]
      exact ⟨fun heq => hfresh (heq ▸ List.mem_cons_self), ih hnodup⟩

/-- A simple path in an ascending graph is a way. -/
theorem SimplePath.exists_way (hg : g.Ascending) (hp : g.SimplePath a p b) :
    ∃ ms, g.Way a (p.map PathStep.target) ms b := by
  obtain ⟨hfollows, hnodup⟩ := hp
  induction hfollows with
  | nil a => exact ⟨[], .refl a⟩
  | cons he _ _ ih =>
      rw [List.map_cons] at hnodup
      obtain ⟨hfresh, hnodup⟩ := List.nodup_cons.mp hnodup
      obtain ⟨ms, hw⟩ := ih hnodup
      have hm := mark?_of_edge? he
      rcases hg.lt_or_loop hm with hlt | ⟨rfl, -⟩
      · exact ⟨_, .step hm hlt hw⟩
      · exact (hfresh List.mem_cons_self).elim

/-- The simple paths that take an edge out of the state where they begin go on from where it
leads. -/
theorem SimplePath.uses_iff (hp : g.SimplePath a p b) {e : Edge} (hsource : e.source = a) :
    p.uses e = true ↔ ∃ q, p = ⟨a, e.target, []⟩ :: q ∧ g.SimplePath e.target q b := by
  obtain ⟨hfollows, hnodup⟩ := hp
  rw [Path.uses, List.any_eq_true]
  simp only [Bool.and_eq_true, beq_iff_eq]
  constructor
  · rintro ⟨step, hstep, hsteps, htarget⟩
    cases hfollows with
    | nil => exact (List.not_mem_nil hstep).elim
    | @cons _ c _ f matched q he hmatched hfollows =>
        obtain rfl := hmatched
        rw [List.map_cons] at hnodup
        obtain ⟨hfresh, hnodup⟩ := List.nodup_cons.mp hnodup
        rcases List.mem_cons.mp hstep with rfl | hstep
        · obtain rfl : c = e.target := htarget
          exact ⟨q, rfl, hfollows, hnodup⟩
        · -- a later step does not start where the path begins
          have hmem := hfollows.source_mem step hstep
          rw [hsteps, hsource] at hmem
          exact (hfresh hmem).elim
  · rintro ⟨q, rfl, -⟩
    exact ⟨_, List.mem_cons_self, hsource.symm, rfl⟩

theorem Ascending.target_lt (hg : g.Ascending) : ∀ a, ∀ e ∈ g.edgesFrom a, e.target < g.size :=
  fun _ _ he => hg.lt_size (mark?_of_edge? (hg.valid.mem_edgesFrom.mp he))

/-- The simple paths that take an edge out of the start state are as many as the ways on from
where it leads. -/
theorem ListsWays.length_pathsThrough (hg : g.Ascending) (hstart : g.start = some start)
    (hfinal : g.final = some final) (hne : start ≠ final) {e : Edge} (he : e ∈ g.edgesFrom start)
    (hlt : start < e.target) {ways : List (List Nat × List Mark)}
    (hways : ListsWays g e.target [final] ways) : (g.pathsThrough e).length = ways.length := by
  have hedge := hg.valid.mem_edgesFrom.mp he
  have hsize : start < g.size := by
    by_contra hle
    rw [edge?_of_size_le (not_lt.mp hle)] at hedge
    cases hedge
  have hmem : ∀ p, p ∈ g.pathsThrough e ↔ g.SimplePath start p final ∧ p.uses e = true := by
    intro p
    rw [pathsThrough, List.mem_filter,
      mem_simplePaths hg.valid hg.target_lt hstart hfinal hsize hne]
  have hsource : e.source = start := (hg.valid.of_edge? hedge).1
  have hperm : ((g.pathsThrough e).map (·.map PathStep.target)).Perm
      (ways.map fun w => e.target :: w.1) := by
    refine (List.perm_ext_iff_of_nodup ?_ ?_).mpr fun cs => ?_
    · refine List.Nodup.map_on (fun p hp q hq heq => ?_) ((nodup_simplePaths hg.valid).filter _)
      exact ((hmem p).mp hp).1.follows.eq_of_unmatched ((hmem q).mp hq).1.follows heq
    · refine List.Nodup.map_on (fun v hv w hw heq => ?_) hways.nodup
      obtain ⟨-, hstates⟩ := List.cons.inj heq
      have hway := hways.way hw
      rw [← hstates] at hway
      exact Prod.ext hstates ((hways.way hv).unique hway).1
    · rw [List.mem_map, List.mem_map]
      constructor
      · rintro ⟨p, hp, rfl⟩
        obtain ⟨hsimple, huses⟩ := (hmem p).mp hp
        obtain ⟨q, rfl, hq⟩ := (hsimple.uses_iff hsource).mp huses
        obtain ⟨ms, hw⟩ := hq.exists_way hg
        exact ⟨(q.map PathStep.target, ms),
          (hways.mem_iff _).mpr ⟨final, List.mem_singleton_self _, hw⟩, rfl⟩
      · rintro ⟨w, hw, rfl⟩
        obtain ⟨q, hq, htargets⟩ := (hways.way hw).exists_simplePath
        have hsimple : g.SimplePath start (⟨start, e.target, []⟩ :: q) final := by
          refine ⟨.cons hedge rfl hq.follows, List.nodup_cons.mpr ⟨fun hback => ?_, hq.nodup⟩⟩
          rw [List.map_cons, htargets, List.mem_cons] at hback
          rcases hback with heq | hback
          · exact Nat.ne_of_lt hlt heq
          · exact Nat.lt_asymm hlt ((hways.way hw).lt_of_mem start hback)
        refine ⟨_, (hmem _).mpr ⟨hsimple, (hsimple.uses_iff hsource).mpr ⟨q, rfl, hq⟩⟩, ?_⟩
        rw [List.map_cons, htargets]
  have hlength := hperm.length_eq
  rwa [List.length_map, List.length_map] at hlength

end Graph

end Utterance
