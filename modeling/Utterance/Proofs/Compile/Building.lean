import Utterance.Proofs.Compile.Language

/-!
# What can be built

Building a tree stops at a broken place.  Whether it comes to one does not depend on the
graph and the state that the tree is built from: the trees that can be built are told by
their form (`Tree.Buildable`, `exists_build_iff`).  If slots are replaced by their values,
these are the *whole* trees, in which nothing is broken (`Tree.buildable_true_iff`).

So the sentences of an intent compile together if each compiles alone
(`exists_ofSentences_iff_forall`), and an alternative if each branch does.
-/

namespace Utterance

open Utterance.Graph

/-! ## Whole trees -/

mutual

/-- Nothing broken is in the way of building a tree with its slots' values. -/
def Tree.Whole : Tree → Prop
  | .word _ _ _ => True
  | .seq _ items _ _ => AllWhole items
  | .rule _ bodies _ =>
    match bodies with
    | [] => False
    | body :: _ => Tree.Whole body
  | .slot _ values _ _ => values ≠ [] ∧ AllWhole values
  | .broken _ => False

def AllWhole : List Tree → Prop
  | [] => True
  | t :: ts => Tree.Whole t ∧ AllWhole ts

end

theorem allWhole_iff_forall {ts : List Tree} : AllWhole ts ↔ ∀ t ∈ ts, t.Whole := by
  induction ts with
  | nil => exact iff_of_true trivial fun _ ht => (List.not_mem_nil ht).elim
  | cons t ts ih => rw [AllWhole, ih, List.forall_mem_cons]

theorem AllWhole.whole_of_mem {ts : List Tree} {t : Tree} (h : AllWhole ts) (hmem : t ∈ ts) :
    t.Whole := allWhole_iff_forall.mp h t hmem

/-! ## Trees that can be built -/

mutual

/-- Nothing is in the way of building a tree.  The values of a slot are if slots are replaced by
them. -/
def Tree.Buildable (expand : Bool) : Tree → Prop
  | .word _ _ _ => True
  | .seq _ items _ _ => AllBuildable expand items
  | .rule _ bodies _ =>
    match bodies with
    | [] => False
    | body :: _ => Tree.Buildable expand body
  | .slot _ values _ _ => expand = true → values ≠ [] ∧ AllBuildable expand values
  | .broken _ => False

def AllBuildable (expand : Bool) : List Tree → Prop
  | [] => True
  | t :: ts => Tree.Buildable expand t ∧ AllBuildable expand ts

end

theorem allBuildable_iff_forall {expand : Bool} {ts : List Tree} :
    AllBuildable expand ts ↔ ∀ t ∈ ts, t.Buildable expand := by
  induction ts with
  | nil => exact iff_of_true trivial fun _ ht => (List.not_mem_nil ht).elim
  | cons t ts ih => rw [AllBuildable, ih, List.forall_mem_cons]

mutual

/-- With their slots' values the whole trees can be built. -/
theorem Tree.buildable_true_iff : ∀ t : Tree, t.Buildable true ↔ t.Whole
  | .word _ _ _ => by rw [Tree.Buildable, Tree.Whole]
  | .seq _ items _ _ => by
      rw [Tree.Buildable, Tree.Whole]
      exact allBuildable_true_iff items
  | .rule _ [] _ => by rw [Tree.Buildable, Tree.Whole]
  | .rule _ (body :: _) _ => by
      rw [Tree.Buildable, Tree.Whole]
      exact Tree.buildable_true_iff body
  | .slot _ values _ _ => by
      rw [Tree.Buildable, Tree.Whole, allBuildable_true_iff values]
      exact forall_prop_of_true rfl
  | .broken _ => by rw [Tree.Buildable, Tree.Whole]

theorem allBuildable_true_iff : ∀ ts : List Tree, AllBuildable true ts ↔ AllWhole ts
  | [] => by rw [AllBuildable, AllWhole]
  | t :: ts => by
      rw [AllBuildable, AllWhole, Tree.buildable_true_iff t, allBuildable_true_iff ts]

end

namespace Built

variable {α β : Type} {P : Prop}

/-- What is built last can be built wherever it starts. -/
theorem exists_andThen_iff {b : Built α} {f : Graph → α → Built β}
    (hf : ∀ g x, (∃ h y, f g x = .done h y) ↔ P) :
    (∃ h y, b.andThen f = .done h y) ↔ (∃ g x, b = .done g x) ∧ P := by
  constructor
  · rintro ⟨h, y, hb⟩
    obtain ⟨g, x, hb, hy⟩ := andThen_eq_done.mp hb
    exact ⟨⟨g, x, hb⟩, (hf g x).mp ⟨h, y, hy⟩⟩
  · rintro ⟨⟨g, x, hb⟩, hP⟩
    obtain ⟨h, y, hy⟩ := (hf g x).mpr hP
    exact ⟨h, y, andThen_eq_done.mpr ⟨g, x, hb, hy⟩⟩

theorem exists_andThen_done_iff {b : Built α} {f : Graph → α → Graph} {a : Graph → α → β} :
    (∃ h y, (b.andThen fun g x => .done (f g x) (a g x)) = .done h y) ↔ ∃ g x, b = .done g x :=
  (exists_andThen_iff fun _ _ => iff_of_true ⟨_, _, rfl⟩ trivial).trans (and_iff_left trivial)

theorem exists_wrap_iff {content : Graph → Nat → Built Nat} {hidden : Bool} {suffix : Suffix}
    {tag : Option Tag} {g : Graph} {s : Nat}
    (hcontent : ∀ g s, (∃ h x, content g s = .done h x) ↔ P) :
    (∃ h x, Built.wrap hidden suffix tag g s content = .done h x) ↔ P :=
  exists_andThen_done_iff.trans (hcontent _ _)

theorem exists_joined_iff {content : Built (List Nat)} :
    (∃ h x, content.joined = .done h x) ↔ ∃ h xs, content = .done h xs :=
  exists_andThen_done_iff

end Built

mutual

/-- Whether a tree can be built does not depend on where. -/
theorem exists_build_iff (expand : Bool) : ∀ (t : Tree) {hidden : Bool} {g : Graph} {s : Nat},
    (∃ h x, build expand hidden g s t = .done h x) ↔ t.Buildable expand
  | .word text suffix tag, _, _, _ => by
      rw [build, Tree.Buildable]
      exact Built.exists_wrap_iff fun _ _ => iff_of_true ⟨_, _, rfl⟩ trivial
  | .seq .group items suffix tag, _, _, _ => by
      rw [build, Tree.Buildable]
      exact Built.exists_wrap_iff fun _ _ => exists_buildInTurn_iff expand items
  | .seq .alternative items suffix tag, _, _, _ => by
      rw [build, Tree.Buildable]
      exact Built.exists_wrap_iff fun _ _ =>
        Built.exists_joined_iff.trans (exists_buildEach_iff expand items)
  | .rule key [] tag, _, _, _ => by
      rw [build, Tree.Buildable]
      exact Built.exists_wrap_iff fun _ _ => iff_of_false (by rintro ⟨_, _, ⟨⟩⟩) id
  | .rule key (body :: _) tag, _, _, _ => by
      rw [build, Tree.Buildable]
      exact Built.exists_wrap_iff fun _ _ => exists_build_iff expand body
  | .slot name values suffix tag, _, _, _ => by
      rw [build, Tree.Buildable]
      refine Built.exists_wrap_iff fun _ _ => Built.exists_andThen_done_iff.trans ?_
      cases expand with
      | false => exact iff_of_true ⟨_, _, rfl⟩ fun h => Bool.noConfusion h
      | true =>
          cases values with
          | nil => exact iff_of_false (by rintro ⟨_, _, ⟨⟩⟩) fun h => (h rfl).1 rfl
          | cons value values =>
              refine Built.exists_joined_iff.trans ((exists_buildEach_iff true _).trans ?_)
              exact ⟨fun h _ => ⟨List.cons_ne_nil _ _, h⟩, fun h => (h rfl).2⟩
  | .broken e, _, _, _ => by
      rw [build, Tree.Buildable]
      exact iff_of_false (by rintro ⟨_, _, ⟨⟩⟩) id

theorem exists_buildInTurn_iff (expand : Bool) : ∀ (ts : List Tree) {hidden : Bool} {g : Graph}
    {s : Nat}, (∃ h x, buildInTurn expand hidden g s ts = .done h x) ↔ AllBuildable expand ts
  | [], _, _, _ => by
      rw [buildInTurn, AllBuildable]
      exact iff_of_true ⟨_, _, rfl⟩ trivial
  | t :: ts, _, _, _ => by
      rw [buildInTurn, AllBuildable, Built.exists_andThen_iff fun _ _ =>
        exists_buildInTurn_iff expand ts, exists_build_iff expand t]

theorem exists_buildEach_iff (expand : Bool) : ∀ (ts : List Tree) {hidden : Bool} {g : Graph}
    {s : Nat}, (∃ h xs, buildEach expand hidden g s ts = .done h xs) ↔ AllBuildable expand ts
  | [], _, _, _ => by
      rw [buildEach, AllBuildable]
      exact iff_of_true ⟨_, _, rfl⟩ trivial
  | t :: ts, _, _, _ => by
      rw [buildEach, AllBuildable, Built.exists_andThen_iff fun _ _ =>
        Built.exists_andThen_done_iff.trans (exists_buildEach_iff expand ts),
        exists_build_iff expand t]

end

/-! ## Compiling -/

theorem unfoldAll_eq_map (t : Table) (c : Scope) (es : List Expr) :
    unfoldAll t c es = es.map (unfold t c) := by
  induction es with
  | nil => rw [unfoldAll, List.map_nil]
  | cons e es ih => rw [unfoldAll, ih, List.map_cons]

theorem exists_buildIntents_iff {t : Table} {expand : Bool} {start : Nat} :
    ∀ (l : List ((String × List Sentence) × EdgeWeight)) {g : Graph},
      (∃ h xs, buildIntents t expand g start l = .done h xs) ↔
        ∀ p ∈ l.map Prod.fst, ∀ s ∈ p.2, (Sentence.unfold t p.1 s).Buildable expand
  | [], _ => by
      rw [buildIntents]
      exact iff_of_true ⟨_, _, rfl⟩ fun _ hp => (List.not_mem_nil hp).elim
  | ((intent, sentences), w) :: rest, _ => by
      rw [buildIntents, Built.exists_andThen_iff fun _ _ =>
        Built.exists_andThen_done_iff.trans (exists_buildIntents_iff rest), List.map_cons,
        List.forall_mem_cons, buildIntent, exists_buildEach_iff, allBuildable_iff_forall,
        List.forall_mem_map]

/-- What is compiled with the values of its slots is whole. -/
theorem whole_of_buildIntents {t : Table} {start : Nat}
    (l : List ((String × List Sentence) × EdgeWeight)) {g h : Graph} {xs : List Nat}
    (hb : buildIntents t true g start l = .done h xs) :
    ∀ p ∈ l.map Prod.fst, ∀ s ∈ p.2, (Sentence.unfold t p.1 s).Whole := fun p hp s hs =>
  (Tree.buildable_true_iff _).mp ((exists_buildIntents_iff l).mp ⟨h, xs, hb⟩ p hp s hs)

/-- The sentences that compile can be built. -/
theorem buildable_of_ofSentences {l : IntentSentences} {o : CompileOptions} {g : Graph}
    (hg : Graph.ofSentences l t o = .ok g) :
    ∀ p ∈ l, ∀ s ∈ p.2, (Sentence.unfold t p.1 s).Buildable o.expandSlots := by
  obtain ⟨ws, h, xs, hlength, hb, -⟩ := ofSentences_eq_ok hg
  have hbuildable := (exists_buildIntents_iff (l.zip ws)).mp ⟨h, xs, hb⟩
  rwa [map_fst_zip_of_length_eq hlength] at hbuildable

/-- Sentences compile if they can be weighed and nothing in them is broken. -/
theorem exists_ofSentences_of_whole {l : IntentSentences} {t : Table} {o : CompileOptions}
    {ws : List EdgeWeight} (hexpand : o.expandSlots = true) (hws : edgeWeights l t o = .ok ws)
    (hwhole : ∀ p ∈ l, ∀ s ∈ p.2, (Sentence.unfold t p.1 s).Whole) :
    ∃ g, Graph.ofSentences l t o = .ok g := by
  have hfst := map_fst_zip_of_length_eq (length_edgeWeights hws)
  obtain ⟨h, xs, hxs⟩ : ∃ h xs, buildIntents t true Graph.initial 0 (l.zip ws) = .done h xs :=
    (exists_buildIntents_iff _).mpr fun p hp s hs =>
      (Tree.buildable_true_iff _).mpr (hwhole p (hfst ▸ hp) s hs)
  refine ⟨(h.join xs).1.setFinal (h.join xs).2, ?_⟩
  rw [Graph.initial] at hxs
  unfold Graph.ofSentences
  rw [hws, hexpand]
  simp only [bind, Except.bind, hxs]

/-- The graph in which the sentences of the only intent begin at the state 1. -/
def Graph.entered (intent : String) : Graph :=
  (Graph.initial.addState.addEdge 0 1 "" (Control.intent intent).text).modifyEdge 0 1
    (Edge.decorate none)

/-- The graph of a single intent. -/
theorem ofSentences_intent (t : Table) (o : CompileOptions) (intent : String)
    (sentences : List Sentence) :
    Graph.ofSentences [(intent, sentences)] t o =
      match buildEach o.expandSlots false (Graph.entered intent) 1
        (sentences.map (Sentence.unfold t intent)) with
      | .stopped _ err => .error err
      | .done g exits => .ok ((g.join exits).1.setFinal (g.join exits).2) := by
  have hweights : edgeWeights [(intent, sentences)] t o = .ok [none] := by simp [edgeWeights]
  have hone : ∀ b : Built (List Nat), (b.andThen fun g exits =>
      (Built.done g []).andThen fun g more => .done g (exits ++ more)) = b := fun b => by
    cases b with
    | stopped g err => rfl
    | done g exits => rw [Built.done_andThen, Built.done_andThen, List.append_nil]
  unfold Graph.ofSentences
  simp only [hweights, bind, Except.bind, List.zip_cons_cons, List.zip_nil_left, buildIntents,
    buildIntent]
  rw [hone]
  rfl

/-- The sentences of an intent compile if each of them can be built. -/
theorem exists_ofSentences_intent {t : Table} {o : CompileOptions} {intent : String}
    {sentences : List Sentence} :
    (∃ g, Graph.ofSentences [(intent, sentences)] t o = .ok g) ↔
      ∀ s ∈ sentences, (Sentence.unfold t intent s).Buildable o.expandSlots := by
  have hbuild : (∃ h xs, buildEach o.expandSlots false (Graph.entered intent) 1
      (sentences.map (Sentence.unfold t intent)) = .done h xs) ↔ _ := exists_buildEach_iff _ _
  rw [allBuildable_iff_forall, List.forall_mem_map] at hbuild
  rw [ofSentences_intent, ← hbuild]
  split
  next err h => exact ⟨fun ⟨_, hg⟩ => (nomatch hg), fun ⟨_, _, hb⟩ => by rw [h] at hb; cases hb⟩
  next h exits hb => exact ⟨fun _ => ⟨h, exits, hb⟩, fun _ => ⟨_, rfl⟩⟩

/-- Sentences of one intent compile together if each of them compiles alone. -/
theorem exists_ofSentences_iff_forall {t : Table} {o : CompileOptions} {intent : String}
    {sentences : List Sentence} :
    (∃ g, Graph.ofSentences [(intent, sentences)] t o = .ok g) ↔
      ∀ s ∈ sentences, ∃ g, Graph.ofSentences [(intent, [s])] t o = .ok g := by
  simp only [exists_ofSentences_intent, List.forall_mem_singleton]

/-- An alternative compiles if each of its branches does. -/
theorem exists_ofSentences_alternative_iff {t : Table} {o : CompileOptions} {intent : String}
    {items : List Expr} {text inner : String} :
    (∃ g, Graph.ofSentences [(intent, [⟨text, [.seq .alternative inner items {} none]⟩])] t o
        = .ok g) ↔
      ∀ e ∈ items, ∃ text g, Graph.ofSentences [(intent, [⟨text, [e]⟩])] t o = .ok g := by
  have hgroup : ∀ tree : Tree, (Tree.seq .group [tree] {} none).Buildable o.expandSlots ↔
      tree.Buildable o.expandSlots := fun tree => by
    rw [Tree.Buildable, AllBuildable, AllBuildable, and_true]
  simp only [exists_ofSentences_intent, List.forall_mem_singleton, Sentence.unfold,
    Sentence.toExpr, unfold, unfoldAll, hgroup, exists_const]
  rw [Tree.Buildable, allBuildable_iff_forall, unfoldAll_eq_map, List.forall_mem_map]

/-- The graph of a single sentence. -/
theorem ofSentences_singleton {t : Table} {intent : String} {s : Sentence} {e : Tree}
    (hunfold : s.unfold t intent = e) :
    Graph.ofSentences [(intent, [s])] t =
      match buildEach true false (Graph.entered intent) 1 [e] with
      | .stopped _ err => .error err
      | .done g exits => .ok ((g.join exits).1.setFinal (g.join exits).2) := by
  rw [ofSentences_intent, List.map_singleton, hunfold]

/-- A single sentence compiles if nothing in it is broken. -/
theorem exists_ofSentences_singleton {t : Table} {intent : String} {s : Sentence}
    (hwhole : (s.unfold t intent).Whole) :
    ∃ g, Graph.ofSentences [(intent, [s])] t = .ok g := by
  have hweights : edgeWeights [(intent, [s])] t {} = .ok [none] := rfl
  refine exists_ofSentences_of_whole rfl hweights fun p hp s' hs' => ?_
  obtain rfl := List.mem_singleton.mp hp
  obtain rfl := List.mem_singleton.mp hs'
  exact hwhole

end Utterance
