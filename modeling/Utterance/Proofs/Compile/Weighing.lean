import Utterance.Proofs.Compile.Counting

/-!
# Weights decorate the graph

Whether the intents are weighed or not, the same graph is built: with the weights and counts
of its edges left out (`Graph.plain`), a graph is the one that is built without them, since
no step of building looks at what an edge carries (`build_plain`, one case per kind of
tree).  What the edges carry is put on those that enter the intents and on no other
(`Graph.PlainBeyond`).

Before anything is built the sentences have to be counted, and counting visits more of the
table than building does: every body of a rule.  Where each rule has one body, it fails at
no tree that can be built (`Tree.Whole.faults`).
-/

namespace Utterance

open Utterance.Graph

/-! ## Leaving out what the edges carry -/

/-- The edge without its weight and count. -/
def Edge.plain (e : Edge) : Edge := { e with weight := none, count := none }

@[simp] theorem Edge.plain_decorate (w : EdgeWeight) (e : Edge) :
    (e.decorate w).plain = e.plain := by
  cases w <;> rfl

theorem modify_id (edges : Array Edge) (i : Nat) : edges.modify i id = edges := by
  refine Array.ext_getElem? fun j => ?_
  rw [Array.getElem?_modify, Option.map_id]
  exact ite_self _

theorem map_plain_modify {f : Edge → Edge} (f' : Edge → Edge)
    (hf : ∀ e, (f e).plain = f' e.plain) (edges : Array Edge) (i : Nat) :
    (edges.modify i f).map Edge.plain = (edges.map Edge.plain).modify i f' := by
  refine Array.ext_getElem? fun j => ?_
  rw [Array.getElem?_map, Array.getElem?_modify, Array.getElem?_modify, Array.getElem?_map]
  split
  · rw [Option.map_map, Option.map_map]
    exact congrArg (Option.map · edges[j]?) (funext hf)
  · rfl

namespace Graph

/-- The graph without the weights and counts of its edges. -/
def plain (g : Graph) : Graph := { g with edges := g.edges.map Edge.plain }

variable {g : Graph}

@[simp] theorem size_plain : g.plain.size = g.size := rfl

@[simp] theorem plain_addState (word : Option String) :
    (g.addState word).plain = g.plain.addState word := rfl

@[simp] theorem plain_setFinal (s : Nat) : (g.setFinal s).plain = g.plain.setFinal s := rfl

@[simp] theorem plain_initial : Graph.initial.plain = Graph.initial := by
  simp [initial, plain, addState, setStart]

/-- Edges are found by the states they join, not by what they carry. -/
@[simp] theorem position?_plain (s t : Nat) : g.plain.position? s t = g.position? s t := by
  have hsame : ∀ i : Nat, (g.plain.edges[i]?).any (fun e : Edge => e.target == t) =
      (g.edges[i]?).any fun e : Edge => e.target == t := by
    intro i
    rw [plain, Array.getElem?_map]
    cases g.edges[i]? <;> rfl
  exact congrArg (List.find? · (g.outOf s)) (funext hsame)

/-- An edge that is there keeps what it carries, and a new one carries nothing. -/
@[simp] theorem plain_addEdge (s t : Nat) (i o : String) :
    (g.addEdge s t i o).plain = g.plain.addEdge s t i o := by
  unfold addEdge
  rw [position?_plain]
  cases g.position? s t with
  | none => simp [plain, Edge.plain]
  | some k =>
      simp only [plain]
      rw [map_plain_modify (fun e => { e with input := i, output := o }) fun _ => rfl]

@[simp] theorem plain_modifyEdge_decorate (s t : Nat) (w : EdgeWeight) :
    (g.modifyEdge s t (Edge.decorate w)).plain = g.plain := by
  unfold modifyEdge
  split
  · simp only [plain]
    rw [map_plain_modify id (Edge.plain_decorate w), modify_id]
  · rfl

theorem modifyEdge_id (s t : Nat) : g.modifyEdge s t id = g := by
  unfold modifyEdge
  split
  · rw [modify_id]
  · rfl

/-- Intents are entered in the same way, whatever is put on their edges. -/
theorem plain_enter (start : Nat) (intent : String) (w : EdgeWeight) :
    (g.enter start intent w).plain = g.plain.enter start intent none := by
  have hnone : Edge.decorate none = id := rfl
  rw [enter, plain_modifyEdge_decorate, plain_addEdge, plain_addState, enter, hnone, size_plain,
    modifyEdge_id]

theorem plain_emitAll : ∀ (labels : List String) (g : Graph) (s : Nat),
    g.plain.emitAll s labels = ((g.emitAll s labels).1.plain, (g.emitAll s labels).2)
  | [], _, _ => rfl
  | label :: labels, g, s => by
      have hemit : g.plain.emit s label = ((g.emit s label).1.plain, (g.emit s label).2) := by
        simp [emit]
      rw [emitAll, emitAll, hemit]
      exact plain_emitAll labels _ _

theorem plain_addWord (s : Nat) (text label : String) :
    g.plain.addWord s text label = ((g.addWord s text label).1.plain, (g.addWord s text label).2) := by
  unfold addWord
  split <;> simp

theorem plain_join (xs : List Nat) :
    g.plain.join xs = ((g.join xs).1.plain, (g.join xs).2) := by
  have hfold : ∀ (xs : List Nat) (j : Nat) (h : Graph),
      (xs.foldl (fun h x => h.addEdge x j "" "") h).plain =
        xs.foldl (fun h x => h.addEdge x j "" "") h.plain := by
    intro xs j
    induction xs with
    | nil => exact fun _ => rfl
    | cons x xs ih =>
        intro h
        rw [List.foldl_cons, List.foldl_cons, ih, plain_addEdge]
  rw [join, join, hfold, size_plain, plain_addState]

end Graph

/-! ## Building -/

namespace Built

variable {α β : Type}

/-- What is built, without what the edges carry. -/
def plain : Built α → Built α
  | done g a => done g.plain a
  | stopped g e => stopped g.plain e

theorem plain_andThen {b b' : Built α} {f f' : Graph → α → Built β} (hb : b.plain = b')
    (hf : ∀ g a, (f g a).plain = f' g.plain a) : (b.andThen f).plain = b'.andThen f' := by
  subst hb
  cases b with
  | done g a => exact hf g a
  | stopped g e => rfl

theorem plain_wrap {hidden : Bool} {suffix : Suffix} {tag : Option Tag} {g : Graph} {s : Nat}
    {content : Graph → Nat → Built Nat} (hcontent : ∀ g s, (content g s).plain = content g.plain s) :
    (wrap hidden suffix tag g s content).plain = wrap hidden suffix tag g.plain s content := by
  rw [wrap, wrap, plain_emitAll]
  refine plain_andThen (hcontent _ _) fun h x => ?_
  rw [plain_emitAll]
  rfl

theorem plain_word {hidden : Bool} {text : String} {g : Graph} {s : Nat} :
    (word hidden text g s).plain = word hidden text g.plain s := by
  rw [word, word, plain_addWord]
  rfl

theorem plain_joined {b b' : Built (List Nat)} (hb : b.plain = b') : b.joined.plain = b'.joined := by
  refine plain_andThen hb fun g xs => ?_
  rw [plain_join]
  rfl

end Built

mutual

/-- What an edge carries makes no difference to building. -/
theorem plain_build (expand : Bool) : ∀ (t : Tree) {hidden : Bool} {g : Graph} {s : Nat},
    (build expand hidden g s t).plain = build expand hidden g.plain s t
  | .word text suffix tag, _, _, _ => by
      rw [build, build]
      exact Built.plain_wrap fun _ _ => Built.plain_word
  | .seq .group items suffix tag, _, _, _ => by
      rw [build, build]
      exact Built.plain_wrap fun _ _ => plain_buildInTurn expand items
  | .seq .alternative items suffix tag, _, _, _ => by
      rw [build, build]
      exact Built.plain_wrap fun _ _ => Built.plain_joined (plain_buildEach expand items)
  | .rule key [] tag, _, _, _ => by
      rw [build, build]
      exact Built.plain_wrap fun _ _ => rfl
  | .rule key (body :: _) tag, _, _, _ => by
      rw [build, build]
      exact Built.plain_wrap fun _ _ => plain_build expand body
  | .slot name values suffix tag, _, _, _ => by
      rw [build, build]
      refine Built.plain_wrap fun _ _ => Built.plain_andThen ?_ fun h x => ?_
      · split
        · rfl
        · split
          · rfl
          · exact Built.plain_joined (plain_buildEach expand values)
      · simp [Graph.emit, Built.plain]
  | .broken e, _, _, _ => by
      rw [build, build]
      rfl

theorem plain_buildInTurn (expand : Bool) : ∀ (ts : List Tree) {hidden : Bool} {g : Graph}
    {s : Nat}, (buildInTurn expand hidden g s ts).plain = buildInTurn expand hidden g.plain s ts
  | [], _, _, _ => by
      rw [buildInTurn, buildInTurn]
      rfl
  | t :: ts, _, _, _ => by
      rw [buildInTurn, buildInTurn]
      exact Built.plain_andThen (plain_build expand t) fun _ _ => plain_buildInTurn expand ts

theorem plain_buildEach (expand : Bool) : ∀ (ts : List Tree) {hidden : Bool} {g : Graph}
    {s : Nat}, (buildEach expand hidden g s ts).plain = buildEach expand hidden g.plain s ts
  | [], _, _, _ => by
      rw [buildEach, buildEach]
      rfl
  | t :: ts, _, _, _ => by
      rw [buildEach, buildEach]
      exact Built.plain_andThen (plain_build expand t) fun _ _ =>
        Built.plain_andThen (plain_buildEach expand ts) fun _ _ => rfl

end

theorem plain_buildIntents (t : Table) (expand : Bool) (start : Nat) :
    ∀ (l : List ((String × List Sentence) × EdgeWeight)) {g : Graph},
      (buildIntents t expand g start l).plain =
        buildIntents t expand g.plain start (l.map fun p => (p.1, none))
  | [], _ => by
      rw [buildIntents, List.map_nil, buildIntents]
      rfl
  | ((intent, sentences), w) :: rest, _ => by
      rw [buildIntents, List.map_cons, buildIntents]
      refine Built.plain_andThen ?_ fun _ _ =>
        Built.plain_andThen (plain_buildIntents t expand start rest) fun _ _ => rfl
      rw [buildIntent_eq, buildIntent_eq, plain_buildEach, plain_enter]
      rfl

/-! ## Counting comes first -/

mutual

/-- Where each rule has one body, nothing is wrong with a tree that can be built. -/
theorem Tree.Whole.faults : ∀ t : Tree, t.Whole → t.OneBodied → t.Faults fun _ => False
  | .word _ _ _, _, _ => by
      rw [Tree.Faults]
      trivial
  | .seq _ items _ _, ht, hone => by
      rw [Tree.Whole] at ht
      rw [Tree.OneBodied] at hone
      rw [Tree.Faults]
      exact AllWhole.faults items ht hone
  | .rule _ [] _, ht, _ => by
      rw [Tree.Whole] at ht
      exact ht.elim
  | .rule _ [body] _, ht, hone => by
      rw [Tree.Whole] at ht
      rw [Tree.OneBodied, AllOneBodied] at hone
      rw [Tree.Faults, FaultsOf, FaultsOf]
      exact ⟨fun h => List.cons_ne_nil _ _ h, Tree.Whole.faults body ht hone.2.1, trivial⟩
  | .rule _ (_ :: _ :: _) _, _, hone => by
      rw [Tree.OneBodied] at hone
      cases hone.1
  | .slot _ values _ _, ht, hone => by
      rw [Tree.Whole] at ht
      rw [Tree.OneBodied] at hone
      rw [Tree.Faults]
      exact ⟨ht.1, AllWhole.faults values ht.2 hone⟩
  | .broken _, ht, _ => by
      rw [Tree.Whole] at ht
      exact ht.elim

theorem AllWhole.faults : ∀ ts : List Tree, AllWhole ts → AllOneBodied ts →
    FaultsOf (fun _ => False) ts
  | [], _, _ => by
      rw [FaultsOf]
      trivial
  | t :: ts, hts, hone => by
      rw [AllWhole] at hts
      rw [AllOneBodied] at hone
      rw [FaultsOf]
      exact ⟨Tree.Whole.faults t hts.1 hone.1, AllWhole.faults ts hts.2 hone.2⟩

end

/-- What compiles with the values of its slots is whole. -/
theorem whole_of_ofSentences {l : IntentSentences} {t : Table} {o : CompileOptions} {g : Graph}
    (hexpand : o.expandSlots = true) (hg : Graph.ofSentences l t o = .ok g) :
    ∀ p ∈ l, ∀ s ∈ p.2, (Sentence.unfold t p.1 s).Whole := by
  intro p hp s hs
  have hbuildable := buildable_of_ofSentences hg p hp s hs
  rw [hexpand] at hbuildable
  exact (Tree.buildable_true_iff _).mp hbuildable

/-- Whether sentences compile does not depend on whether their intents are weighed, if each rule
has one body. -/
theorem exists_ofSentences_iff_whole {l : IntentSentences} {t : Table} (o : CompileOptions)
    (hone : t.OneBodied) (hexpand : o.expandSlots = true) :
    (∃ g, Graph.ofSentences l t o = .ok g) ↔
      ∀ p ∈ l, ∀ s ∈ p.2, (Sentence.unfold t p.1 s).Whole := by
  refine ⟨fun ⟨g, hg⟩ => whole_of_ofSentences hexpand hg, fun hwhole => ?_⟩
  cases hws : edgeWeights l t o with
  | ok ws => exact exists_ofSentences_of_whole hexpand hws hwhole
  | error e =>
      have hfaults : ∀ p ∈ l, ∀ s ∈ p.2, (Sentence.unfold t p.1 s).Faults fun _ => False :=
        fun p hp s hs => Tree.Whole.faults _ (hwhole p hp s hs) (oneBodied_unfold hone _ _)
      exact (edgeWeights_error hfaults hws).elim

/-! ## What the edges carry -/

/-- What the edge says, and what it carries. -/
def Edge.carries (e : Edge) : String × Option Nat × Option Float := (e.output, e.count, e.weight)

/-- What is put on the edge that enters an intent. -/
def intentCarries (intent : String) (w : EdgeWeight) : String × Option Nat × Option Float :=
  ((Control.intent intent).text, w.map fun c => min c.1 maxEdgeCount, w.map Prod.snd)

theorem Edge.carries_entering (start target : Nat) (intent : String) (w : EdgeWeight) :
    (Edge.entering start target intent w).carries = intentCarries intent w := by
  cases w <;> rfl

namespace Graph

/-- Only the edges out of the state carry anything. -/
def PlainBeyond (g : Graph) (start : Nat) : Prop :=
  ∀ e ∈ g.edges.toList, e.source ≠ start → e.weight = none ∧ e.count = none

variable {g h : Graph} {start s : Nat}

/-- New labels change nothing of what an edge carries. -/
theorem PlainBeyond.addEdge (hplain : g.PlainBeyond start) (a b : Nat) (i o : String) :
    (g.addEdge a b i o).PlainBeyond start := by
  unfold Graph.addEdge
  split
  · intro e he
    obtain ⟨k, hk⟩ := List.mem_iff_getElem?.mp he
    rw [Array.getElem?_toList, Array.getElem?_modify] at hk
    split at hk
    · obtain ⟨old, hold, rfl⟩ := Option.map_eq_some_iff.mp hk
      exact hplain old (Array.mem_of_getElem? hold).val
    · exact hplain e (Array.mem_of_getElem? hk).val
  · intro e he
    rw [Array.toList_push] at he
    rcases List.mem_append.mp he with he | he
    · exact hplain e he
    · obtain rfl := List.mem_singleton.mp he
      exact fun _ => ⟨rfl, rfl⟩

theorem PlainBeyond.join (hplain : g.PlainBeyond start) (xs : List Nat) :
    (g.join xs).1.PlainBeyond start := by
  have hfold : ∀ (xs : List Nat) (j : Nat) (h : Graph), h.PlainBeyond start →
      (xs.foldl (fun h x => h.addEdge x j "" "") h).PlainBeyond start := by
    intro xs j
    induction xs with
    | nil => exact fun _ h => h
    | cons x xs ih => exact fun h hplain => ih _ (hplain.addEdge x j "" "")
  exact hfold xs g.size g.addState hplain

theorem PlainBeyond.enter (hplain : g.PlainBeyond start) (hg : g.Consistent) (hs : start < g.size)
    (intent : String) (w : EdgeWeight) : (g.enter start intent w).PlainBeyond start := by
  have hsize : g.addState.size = g.size + 1 := size_addState g none
  have hadded : g.addState.PlainBeyond start := hplain
  have hedge := hadded.addEdge start g.size "" (Control.intent intent).text
  have hs' : start < g.addState.size := by omega
  have hnew : g.size < g.addState.size := by omega
  have hconsistent := (hg.addState none).addEdge hs' hnew "" (Control.intent intent).text
  intro e he hsource
  rw [Graph.enter, hconsistent.edges_modifyEdge] at he
  obtain ⟨old, hold, rfl⟩ := List.mem_map.mp he
  by_cases hends : old.ends = (start, g.size)
  · -- this edge leaves the state
    rw [if_pos hends, (keeps_decorate w old).1] at hsource
    exact absurd (congrArg Prod.fst hends) hsource
  · rw [if_neg hends] at hsource ⊢
    exact hedge old hold hsource

theorem Grows.plainBeyond (G : g.Grows s h) (hplain : g.PlainBeyond start) :
    h.PlainBeyond start := by
  induction G with
  | refl => exact hplain
  | addState _ _ ih => exact ih
  | addEdge i o _ _ _ _ _ ih => exact ih.addEdge _ _ i o
  | addLoop _ _ _ ih => exact ih.addEdge _ _ _ _

/-- What building intents from the state `start` puts on edges: one edge is added there for each
intent, and no other edge carries anything. -/
structure Decorates (start : Nat) (g h : Graph) (xs : List Nat)
    (l : List ((String × List Sentence) × EdgeWeight)) : Prop where
  consistent : h.Consistent
  size_le : g.size ≤ h.size
  exits : ∀ x ∈ xs, g.size ≤ x ∧ x < h.size
  plain : h.PlainBeyond start
  entered : (h.edgesFrom start).map Edge.carries = (g.edgesFrom start).map Edge.carries ++
    l.map fun p => intentCarries p.1.1 p.2

end Graph

theorem decorates_buildIntents {t : Table} {expand : Bool} {start : Nat} :
    ∀ (l : List ((String × List Sentence) × EdgeWeight)) {g h : Graph} {xs : List Nat},
      g.Consistent → start < g.size → g.PlainBeyond start →
      buildIntents t expand g start l = .done h xs → Decorates start g h xs l
  | [], g, h, xs, hg, _, hplain, hb => by
      rw [buildIntents] at hb
      cases hb
      exact ⟨hg, Nat.le_refl _, fun _ hx => (List.not_mem_nil hx).elim, hplain,
        (List.append_nil _).symm⟩
  | (p, w) :: rest, g, h, xs, hg, hs, hplain, hb => by
      rw [buildIntents] at hb
      obtain ⟨k, ys, hk, hrest⟩ := Built.andThen_eq_done.mp hb
      obtain ⟨_, zs, hk', hdone⟩ := Built.andThen_eq_done.mp hrest
      cases hdone
      rw [buildIntent_eq] at hk
      obtain ⟨hentry, hedges⟩ := hg.enter hs p.1 w
      have hsize := size_enter g start p.1 w
      have hgrown : (buildEach expand false (g.enter start p.1 w) g.size
          (p.2.map (Sentence.unfold t p.1))).Grown _ _ id := buildEach_grown expand _ (by omega)
      rw [hk] at hgrown
      have G : (g.enter start p.1 w).GrowsTo g.size k ys := hgrown
      have hle := G.grows.size_le
      have D := decorates_buildIntents rest (G.grows.consistent hentry) (by omega)
        (G.grows.plainBeyond (hplain.enter hg hs p.1 w)) hk'
      have hle' := D.size_le
      refine ⟨D.consistent, by omega, fun x hx => ?_, D.plain, ?_⟩
      · rcases List.mem_append.mp hx with hx | hx
        · obtain ⟨hnew, hlt⟩ := G.exits x hx
          omega
        · obtain ⟨hnew, hlt⟩ := D.exits x hx
          omega
      · -- building from the new state adds nothing at the start state
        rw [D.entered, G.grows.edgesFrom_eq hentry (by omega) (Nat.ne_of_lt hs), hedges,
          List.map_append, List.map_singleton, Edge.carries_entering, List.map_cons,
          List.append_assoc, List.singleton_append]

theorem buildIntents_of_ofSentences {l : IntentSentences} {t : Table} {o : CompileOptions}
    {g : Graph} {ws : List EdgeWeight} (hws : edgeWeights l t o = .ok ws)
    (hg : Graph.ofSentences l t o = .ok g) :
    ∃ h xs, buildIntents t o.expandSlots Graph.initial 0 (l.zip ws) = .done h xs ∧
      g = (h.join xs).1.setFinal (h.join xs).2 := by
  unfold Graph.ofSentences at hg
  simp only [hws, bind, Except.bind] at hg
  split at hg
  next => cases hg
  next h xs hb => exact ⟨h, xs, hb, (Except.ok.inj hg).symm⟩

/-- What the edges of a compiled graph carry: those out of the start state what the intents have
been given, and the others nothing. -/
theorem carries_ofSentences {l : IntentSentences} {t : Table} {o : CompileOptions} {g : Graph}
    {ws : List EdgeWeight} (hws : edgeWeights l t o = .ok ws)
    (hg : Graph.ofSentences l t o = .ok g) :
    g.PlainBeyond 0 ∧
      (g.edgesFrom 0).map Edge.carries = (l.zip ws).map fun p => intentCarries p.1.1 p.2 := by
  obtain ⟨h, xs, hb, rfl⟩ := buildIntents_of_ofSentences hws hg
  have hplain : Graph.initial.PlainBeyond 0 := fun e he => (List.not_mem_nil he).elim
  have D := decorates_buildIntents (l.zip ws) consistent_initial Nat.zero_lt_one hplain hb
  have hstart : 0 ∉ xs := fun hmem => Nat.not_lt_of_le (D.exits 0 hmem).1 Nat.zero_lt_one
  have hedges : ((h.join xs).1.setFinal (h.join xs).2).edgesFrom 0 = h.edgesFrom 0 :=
    D.consistent.edgesFrom_join (fun x hx => (D.exits x hx).2) hstart
  exact ⟨D.plain.join xs, hedges ▸ D.entered⟩

/-! ## With weights and without -/

/-- The counts are listed with the intents' names. -/
theorem map_fst_intentCounts {l : IntentSentences} {t : Table} {excludeSlots : Bool}
    {counts : List (String × Nat)} (h : intentCounts l t excludeSlots = .ok counts) :
    counts.map Prod.fst = l.map Prod.fst := by
  induction l generalizing counts with
  | nil =>
      cases h
      rfl
  | cons p l ih =>
      rw [intentCounts, List.mapM_cons] at h
      obtain ⟨c, hc, h⟩ := Except.bind_eq_ok_iff.mp h
      obtain ⟨rest, hrest, h⟩ := Except.bind_eq_ok_iff.mp h
      obtain ⟨n, -, hn⟩ := Except.bind_eq_ok_iff.mp hc
      cases h
      cases hn
      rw [List.map_cons, List.map_cons, ih hrest]

/-- Two or more intents that have been counted are all given their count and weight. -/
theorem edgeWeights_eq_ok {l : IntentSentences} {t : Table} {o : CompileOptions}
    {ws : List EdgeWeight} (hl : 2 ≤ l.length) (hadd : o.addWeights = true)
    (hws : edgeWeights l t o = .ok ws) :
    ∃ counts, intentCounts l t o.excludeSlots = .ok counts ∧
      ws = ((counts.map Prod.snd).zip (intentWeights (counts.map Prod.snd))).map some := by
  have hmany : (o.addWeights && decide (1 < l.length)) = true := by
    rw [hadd, Bool.true_and]
    exact decide_eq_true hl
  rw [edgeWeights, if_pos hmany] at hws
  obtain ⟨counts, hcounts, hws⟩ := Except.bind_eq_ok_iff.mp hws
  exact ⟨counts, hcounts, (Except.ok.inj hws).symm⟩

theorem map_zip_some_zip {α : Type} (f : String → EdgeWeight → α) :
    ∀ (counts : List (String × Nat)) (weights : List Float),
      ((counts.map Prod.fst).zip (((counts.map Prod.snd).zip weights).map some)).map
          (fun p => f p.1 p.2) =
        (counts.zip weights).map fun c => f c.1.1 (some (c.1.2, c.2))
  | [], _ => rfl
  | _ :: _, [] => rfl
  | _ :: counts, _ :: weights => congrArg _ (map_zip_some_zip f counts weights)

/-- What the intents are given, listed with their names by the counts. -/
theorem map_intentCarries {l : IntentSentences} {counts : List (String × Nat)}
    (hnames : counts.map Prod.fst = l.map Prod.fst) (weights : List Float) :
    (l.zip (((counts.map Prod.snd).zip weights).map some)).map
        (fun p => intentCarries p.1.1 p.2) =
      (counts.zip weights).map fun c => intentCarries c.1.1 (some (c.1.2, c.2)) := by
  have hfst : ∀ ws : List EdgeWeight, (l.zip ws).map (fun p => intentCarries p.1.1 p.2) =
      ((l.map Prod.fst).zip ws).map fun p => intentCarries p.1 p.2 := by
    intro ws
    rw [List.zip_map_left, List.map_map]
    rfl
  rw [hfst, ← hnames, map_zip_some_zip]

theorem map_none_zip {l : IntentSentences} {ws : List EdgeWeight} (h : ws.length = l.length) :
    ((l.zip ws).map fun p => (p.1, (none : EdgeWeight))) = l.zip (l.map fun _ => none) := by
  rw [← List.map_prod_left_eq_zip]
  conv_rhs => rw [← map_fst_zip_of_length_eq h]
  rw [List.map_map]
  rfl

/-- Without weighing, the graph is the same one without what its edges carry. -/
theorem ofSentences_plain {l : IntentSentences} {t : Table} {o : CompileOptions} {g : Graph}
    (hg : Graph.ofSentences l t o = .ok g) :
    Graph.ofSentences l t { o with addWeights := false } = .ok g.plain := by
  obtain ⟨ws, h, xs, hlength, hb, rfl⟩ := ofSentences_eq_ok hg
  have hplain := plain_buildIntents t o.expandSlots 0 (l.zip ws) (g := Graph.initial)
  rw [hb, plain_initial, map_none_zip hlength] at hplain
  have hbuilt : buildIntents t o.expandSlots Graph.initial 0 (l.zip (l.map fun _ => none)) =
      .done h.plain xs := hplain.symm
  have hws : edgeWeights l t { o with addWeights := false } = .ok (l.map fun _ => none) := rfl
  unfold Graph.ofSentences
  rw [initial] at hbuilt
  simp only [hws, bind, Except.bind, hbuilt, plain_join]
  rfl

/-- Where each rule has one body, weighing two or more intents does not change whether the
sentences compile, and only decorates the graph: without weights and counts it is the graph that
is compiled without weighing.  All edges out of the start state carry the labels of the intents,
their counts and weights, and no other edge carries anything. -/
theorem ofSentences_addWeights {l : IntentSentences} {t : Table} (o : CompileOptions)
    (hl : 2 ≤ l.length) (hone : t.OneBodied) (hexpand : o.expandSlots = true) :
    ((∃ g, Graph.ofSentences l t { o with addWeights := true } = .ok g) ↔
      ∃ g, Graph.ofSentences l t { o with addWeights := false } = .ok g) ∧
    ∀ g h, Graph.ofSentences l t { o with addWeights := true } = .ok g →
      Graph.ofSentences l t { o with addWeights := false } = .ok h →
      h = g.plain ∧ g.start = some 0 ∧ g.PlainBeyond 0 ∧
      ∃ counts, intentCounts l t o.excludeSlots = .ok counts ∧
        (g.edgesFrom 0).map Edge.carries =
          (counts.zip (intentWeights (counts.map Prod.snd))).map fun c =>
            ((Control.intent c.1.1).text, some (min c.1.2 maxEdgeCount), some c.2) := by
  refine ⟨(exists_ofSentences_iff_whole { o with addWeights := true } hone hexpand).trans
    (exists_ofSentences_iff_whole { o with addWeights := false } hone hexpand).symm,
    fun g h hg hh => ?_⟩
  obtain ⟨ws, hws, -⟩ := Except.bind_eq_ok_iff.mp hg
  obtain ⟨counts, hcounts, rfl⟩ := edgeWeights_eq_ok hl rfl hws
  obtain ⟨hplain, hcarries⟩ := carries_ofSentences hws hg
  refine ⟨?_, start_ofSentences hg, hplain, counts, hcounts, ?_⟩
  · exact Except.ok.inj (hh.symm.trans (ofSentences_plain (o := { o with addWeights := true }) hg))
  · exact hcarries.trans (map_intentCarries (map_fst_intentCounts hcounts) _)

/-- Two intents, of which one has three sentences. -/
theorem ofSentences_lampAndWait :
    ∃ g h, Graph.ofSentences lampAndWait lampTable { addWeights := true } = .ok g ∧
      Graph.ofSentences lampAndWait lampTable { addWeights := false } = .ok h ∧ h = g.plain ∧
      g.PlainBeyond 0 ∧ (g.edgesFrom 0).map (fun e => (e.output, e.count)) =
        [("__label__Lamp", some 1), ("__label__Wait", some 3)] := by
  have hwhole : ∀ p ∈ lampAndWait, ∀ s ∈ p.2, (Sentence.unfold lampTable p.1 s).Whole := by
    simp [lampAndWait, unfold_lampSentence, unfold_waitSentence, Tree.Whole, AllWhole]
  have heval : intentCounts lampAndWait lampTable true = .ok [("Lamp", 1), ("Wait", 3)] := by
    simp only [intentCounts, lampAndWait, List.mapM_cons, List.mapM_nil, intentCount,
      List.map_cons, List.map_nil, unfold_lampSentence, unfold_waitSentence]
    rfl
  obtain ⟨hiff, hsame⟩ := ofSentences_addWeights (l := lampAndWait) {} (by decide)
    oneBodied_lampTable rfl
  obtain ⟨h, hh⟩ := (exists_ofSentences_iff_whole { addWeights := false } oneBodied_lampTable
    rfl).mpr hwhole
  obtain ⟨g, hg⟩ := hiff.mpr ⟨h, hh⟩
  obtain ⟨hplain, -, hbeyond, counts, hcounts, hcarries⟩ := hsame g h hg hh
  obtain rfl : [("Lamp", 1), ("Wait", 3)] = counts := Except.ok.inj (heval.symm.trans hcounts)
  refine ⟨g, h, hg, hh, hplain, hbeyond, ?_⟩
  have hlength : (intentWeights [1, 3]).length = 2 := length_intentWeights _
  obtain ⟨u, v, huv⟩ := List.length_eq_two.mp hlength
  have hfront := congrArg (List.map fun c => (c.1, c.2.1)) hcarries
  rw [List.map_map] at hfront
  refine hfront.trans ?_
  simp only [List.map_cons, List.map_nil, huv]
  rfl

end Utterance
