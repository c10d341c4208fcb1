import Utterance.Compile.Graph
import Utterance.Proofs.Graph.History

/-!
# What building does to a graph

To build something from the state `s` of a graph takes three kinds of steps, listed by
`Grows`: a state is added, an edge is added from `s` or from a new state to a new one, or one
of these gets the loop of a wildcard.  This holds of every tree, and also of what has been
built when building stops (`build_grown`, one case per kind of tree).

So nothing happens to the edges out of any other state (`Grows.edgesFrom_eq`).
-/

namespace Utterance

namespace Graph

/-! ## Steps -/

/-- What can become of the graph `g` when something is built from its state `s`. -/
inductive Grows (g : Graph) (s : Nat) : Graph → Prop where
  | refl : Grows g s g
  | addState {h : Graph} (word : Option String) : Grows g s h → Grows g s (h.addState word)
  | addEdge {h : Graph} {a b : Nat} (input output : String) : Grows g s h →
      (a = s ∨ g.size ≤ a) → a < b → g.size ≤ b → b < h.size →
      Grows g s (h.addEdge a b input output)
  | addLoop {h : Graph} {a : Nat} : Grows g s h → (a = s ∨ g.size ≤ a) → a < h.size →
      Grows g s (h.addEdge a a wildcard wildcard)

/-- The graph grows from the state `s`, and the exits are this one and new ones. -/
structure GrowsTo (g : Graph) (s : Nat) (h : Graph) (xs : List Nat) : Prop where
  grows : g.Grows s h
  exits : ∀ x ∈ xs, (x = s ∨ g.size ≤ x) ∧ x < h.size

variable {g h k : Graph} {s x : Nat} {xs ys : List Nat}

namespace Grows

theorem size_le (G : g.Grows s h) : g.size ≤ h.size := by
  induction G with
  | refl => exact Nat.le_refl _
  | addState word _ ih =>
      rw [size_addState]
      exact Nat.le_succ_of_le ih
  | addEdge i o _ _ _ _ _ ih =>
      rw [size_addEdge]
      exact ih
  | addLoop _ _ _ ih =>
      rw [size_addEdge]
      exact ih

/-- What is built on from an exit is built from the state where it all began. -/
theorem trans (G : g.Grows s h) (H : h.Grows x k) (hx : x = s ∨ g.size ≤ x) : g.Grows s k := by
  have hle := G.size_le
  have hfrom : ∀ {a}, a = x ∨ h.size ≤ a → a = s ∨ g.size ≤ a := by
    rintro a (rfl | ha)
    · exact hx
    · exact .inr (Nat.le_trans hle ha)
  induction H with
  | refl => exact G
  | addState word _ ih => exact .addState word ih
  | addEdge i o _ hab hlt hb hb' ih =>
      exact .addEdge i o ih (hfrom hab) hlt (Nat.le_trans hle hb) hb'
  | addLoop _ hab ha ih => exact .addLoop ih (hfrom hab) ha

theorem consistent (G : g.Grows s h) (hg : g.Consistent) : h.Consistent := by
  induction G with
  | refl => exact hg
  | addState word _ ih => exact ih.addState word
  | addEdge i o _ _ hlt _ hb ih => exact ih.addEdge (Nat.lt_trans hlt hb) hb i o
  | addLoop _ _ ha ih => exact ih.addEdge ha ha wildcard wildcard

end Grows

/-- An edge changes nothing at the states that it does not leave. -/
theorem Consistent.edgesFrom_addEdge_of_ne (hg : g.Consistent) {a b c : Nat} (ha : a < g.size)
    (hb : b < g.size) (i o : String) (hne : c ≠ a) :
    (g.addEdge a b i o).edgesFrom c = g.edgesFrom c := by
  rw [(hg.addEdge ha hb i o).edgesFrom_eq, hg.edgesFrom_eq, hg.edges_addEdge]
  split
  · rw [List.filter_map]
    have hsource : (fun e : Edge => e.source == c) ∘
        (fun e => if e.ends = (a, b) then relabelled i o e else e) = fun e => e.source == c := by
      funext e
      rw [Function.comp_apply]
      split <;> rfl
    rw [hsource]
    refine (List.map_congr_left fun e he => ?_).trans (List.map_id _)
    refine if_neg fun hends => hne ?_
    rw [← eq_of_beq (List.mem_filter.mp he).2]
    exact congrArg Prod.fst hends
  · have hother : (a == c) = false := beq_false_of_ne (Ne.symm hne)
    rw [List.filter_append, List.filter_cons_of_neg (by simp [hother]), List.filter_nil,
      List.append_nil]

/-- Building changes nothing at the other states that there were. -/
theorem Grows.edgesFrom_eq (G : g.Grows s h) (hg : g.Consistent) {c : Nat} (hc : c < g.size)
    (hcs : c ≠ s) : h.edgesFrom c = g.edgesFrom c := by
  have hne : ∀ {a}, a = s ∨ g.size ≤ a → c ≠ a := by
    rintro a (rfl | ha)
    · exact hcs
    · exact Nat.ne_of_lt (Nat.lt_of_lt_of_le hc ha)
  induction G with
  | refl => rfl
  | addState word _ ih => rw [edgesFrom_addState, ih]
  | addEdge i o G hab hlt _ hb ih =>
      rw [(G.consistent hg).edgesFrom_addEdge_of_ne (Nat.lt_trans hlt hb) hb i o (hne hab), ih]
  | addLoop G hab ha ih =>
      rw [(G.consistent hg).edgesFrom_addEdge_of_ne ha ha _ _ (hne hab), ih]

/-! ## Growing step by step -/

namespace GrowsTo

/-- Nothing is built. -/
theorem refl (hs : s < g.size) : g.GrowsTo s g [s] := by
  refine ⟨.refl, fun x hx => ?_⟩
  obtain rfl := List.mem_singleton.mp hx
  exact ⟨.inl rfl, hs⟩

theorem exit (G : g.GrowsTo s h [x]) : (x = s ∨ g.size ≤ x) ∧ x < h.size :=
  G.exits x (List.mem_singleton_self x)

theorem trans (G : g.GrowsTo s h [x]) (H : h.GrowsTo x k ys) : g.GrowsTo s k ys := by
  obtain ⟨hx, -⟩ := G.exit
  refine ⟨G.grows.trans H.grows hx, fun y hy => ?_⟩
  obtain ⟨hyx, hy⟩ := H.exits y hy
  refine ⟨?_, hy⟩
  rcases hyx with rfl | hle
  · exact hx
  · exact .inr (Nat.le_trans G.grows.size_le hle)

/-- What is built first and what is built next, both from the same state. -/
theorem append (G : g.GrowsTo s h xs) (H : h.GrowsTo s k ys) : g.GrowsTo s k (xs ++ ys) := by
  refine ⟨G.grows.trans H.grows (.inl rfl), fun y hy => ?_⟩
  rcases List.mem_append.mp hy with hy | hy
  · obtain ⟨hys, hy⟩ := G.exits y hy
    exact ⟨hys, Nat.lt_of_lt_of_le hy H.grows.size_le⟩
  · obtain ⟨hys, hy⟩ := H.exits y hy
    exact ⟨hys.imp_right (Nat.le_trans G.grows.size_le), hy⟩

/-- An edge to a state that has just been added. -/
theorem toNew (G : g.Grows s h) (hsize : h.size = g.size + 1) (hs : s < g.size) (i o : String) :
    g.GrowsTo s (h.addEdge s g.size i o) [g.size] := by
  have hlt : g.size < h.size := by rw [hsize]; exact Nat.lt_succ_self _
  refine ⟨.addEdge i o G (.inl rfl) hs (Nat.le_refl _) hlt, fun x hx => ?_⟩
  obtain rfl := List.mem_singleton.mp hx
  rw [size_addEdge]
  exact ⟨.inr (Nat.le_refl _), hlt⟩

theorem emit (hs : s < g.size) (label : String) :
    g.GrowsTo s (g.emit s label).1 [(g.emit s label).2] :=
  toNew (.addState none .refl) (size_addState g none) hs "" (Label.pack label)

theorem emitAll (labels : List String) (hs : s < g.size) :
    g.GrowsTo s (g.emitAll s labels).1 [(g.emitAll s labels).2] := by
  induction labels generalizing g s with
  | nil => exact refl hs
  | cons label rest ih =>
      have G := emit hs label
      exact G.trans (ih G.exit.2)

theorem addWord (hs : s < g.size) (text label : String) :
    g.GrowsTo s (g.addWord s text label).1 [(g.addWord s text label).2] := by
  have hsize := size_addState g (some text)
  have hs' : s < (g.addState (some text)).size := by omega
  by_cases hwild : (text == wildcard) = true
  · simp only [Graph.addWord, if_pos hwild]
    refine toNew (.addLoop (.addState _ .refl) (.inl rfl) hs') ?_ hs text label
    rw [size_addEdge, hsize]
  · simp only [Graph.addWord, if_neg hwild]
    exact toNew (.addState _ .refl) hsize hs text label

/-- Edges from several states to one that is new. -/
theorem foldl_addEdge {j : Nat} (G : g.Grows s h) (hj : g.size ≤ j) (hj' : j < h.size)
    (hxs : ∀ x ∈ xs, (x = s ∨ g.size ≤ x) ∧ x < j) :
    g.Grows s (xs.foldl (fun h x => h.addEdge x j "" "") h) := by
  induction xs generalizing h with
  | nil => exact G
  | cons x xs ih =>
      rw [List.forall_mem_cons] at hxs
      obtain ⟨⟨hx, hx'⟩, hxs⟩ := hxs
      refine ih (.addEdge "" "" G hx hx' hj hj') ?_ hxs
      rw [size_addEdge]
      exact hj'

theorem size_foldl_addEdge (xs : List Nat) (j : Nat) (h : Graph) :
    (xs.foldl (fun h x => h.addEdge x j "" "") h).size = h.size := by
  induction xs generalizing h with
  | nil => rfl
  | cons x xs ih => rw [List.foldl_cons, ih, size_addEdge]

theorem join (G : g.GrowsTo s h xs) : g.GrowsTo s (h.join xs).1 [(h.join xs).2] := by
  have hsize : h.addState.size = h.size + 1 := size_addState h none
  constructor
  case grows =>
    exact foldl_addEdge (.addState none G.grows) G.grows.size_le (by omega) G.exits
  case exits =>
    intro x hx
    obtain rfl := List.mem_singleton.mp hx
    refine ⟨.inr G.grows.size_le, ?_⟩
    rw [Graph.join, size_foldl_addEdge, hsize]
    exact Nat.lt_succ_self _

end GrowsTo

end Graph

/-! ## What is built -/

open Utterance.Graph

namespace Built

variable {α β : Type} {g h : Graph} {s x : Nat} {ends : α → List Nat} {ends' : β → List Nat}

/-- What has been built from the state `s` of `g`, whether or not building has stopped. -/
def Grown (g : Graph) (s : Nat) (ends : α → List Nat) : Built α → Prop
  | .done h a => g.GrowsTo s h (ends a)
  | .stopped h _ => g.Grows s h

theorem Grown.grows {b : Built α} (hb : b.Grown g s ends) : g.Grows s b.graph := by
  cases b with
  | done h a => exact GrowsTo.grows hb
  | stopped h e => exact hb

/-- What is built on from an exit. -/
theorem Grown.after {b : Built α} (G : g.GrowsTo s h [x]) (hb : b.Grown h x ends) :
    b.Grown g s ends := by
  cases b with
  | done k a => exact G.trans hb
  | stopped k e => exact G.grows.trans hb G.exit.1

theorem Grown.andThen {b : Built Nat} {f : Graph → Nat → Built β}
    (hb : b.Grown g s fun x => [x]) (hf : ∀ h x, x < h.size → (f h x).Grown h x ends') :
    (b.andThen f).Grown g s ends' := by
  cases b with
  | done h x => exact .after hb (hf h x (GrowsTo.exit hb).2)
  | stopped h e => exact hb

theorem Grown.wrap {hidden : Bool} {suffix : Suffix} {tag : Option Tag}
    {content : Graph → Nat → Built Nat} (hs : s < g.size)
    (hcontent : ∀ g s, s < g.size → (content g s).Grown g s fun x => [x]) :
    (Built.wrap hidden suffix tag g s content).Grown g s fun x => [x] := by
  have G := GrowsTo.emitAll (labelsBefore suffix tag) hs
  refine .after G (.andThen (hcontent _ _ G.exit.2) fun h x hx => ?_)
  exact GrowsTo.emitAll (labelsAfter hidden suffix tag) hx

theorem Grown.joined {b : Built (List Nat)} (hb : b.Grown g s id) :
    b.joined.Grown g s fun x => [x] := by
  cases b with
  | done h xs => exact GrowsTo.join hb
  | stopped h e => exact hb

/-- What is built from one state in two parts, the ends of which are listed together. -/
theorem Grown.both {b : Built α} {f : Graph → Built β} {γ : Type} {pair : α → β → γ}
    {ends'' : γ → List Nat} (hb : b.Grown g s ends) (hs : s < g.size)
    (hf : ∀ h, s < h.size → (f h).Grown h s ends')
    (hends : ∀ a a', ends'' (pair a a') = ends a ++ ends' a') :
    (b.andThen fun h a => (f h).andThen fun k a' => .done k (pair a a')).Grown g s ends'' := by
  cases b with
  | stopped h e => exact hb
  | done h a =>
      have G : g.GrowsTo s h (ends a) := hb
      have H := hf h (Nat.lt_of_lt_of_le hs G.grows.size_le)
      rw [done_andThen]
      cases hrest : f h with
      | stopped k e =>
          rw [hrest] at H
          exact G.grows.trans H (.inl rfl)
      | done k a' =>
          rw [hrest] at H
          rw [done_andThen, Grown, hends]
          exact G.append H

end Built

mutual

/-- Building a tree lets the graph grow, even if it stops. -/
theorem build_grown (expand : Bool) : ∀ (t : Tree) {hidden : Bool} {g : Graph} {s : Nat},
    s < g.size → (build expand hidden g s t).Grown g s fun x => [x]
  | .word text suffix tag, _, _, _, hs => by
      rw [build]
      exact .wrap hs fun g s hs => GrowsTo.addWord hs text _
  | .seq .group items suffix tag, _, _, _, hs => by
      rw [build]
      exact .wrap hs fun g s hs => buildInTurn_grown expand items hs
  | .seq .alternative items suffix tag, _, _, _, hs => by
      rw [build]
      exact .wrap hs fun g s hs => .joined (buildEach_grown expand items hs)
  | .rule key [] tag, _, _, _, hs => by
      rw [build]
      exact .wrap hs fun g s hs => Grows.refl
  | .rule key (body :: _) tag, _, _, _, hs => by
      rw [build]
      exact .wrap hs fun g s hs => build_grown expand body hs
  | .slot name values suffix tag, _, _, _, hs => by
      rw [build]
      refine .wrap hs fun g s hs => .andThen ?_ fun h x hx => GrowsTo.emit hx _
      split
      · exact GrowsTo.refl hs
      · split
        · exact Grows.refl
        · exact .joined (buildEach_grown expand values hs)
  | .broken e, _, _, _, _ => by
      rw [build]
      exact Grows.refl

theorem buildInTurn_grown (expand : Bool) : ∀ (ts : List Tree) {hidden : Bool} {g : Graph}
    {s : Nat}, s < g.size → (buildInTurn expand hidden g s ts).Grown g s fun x => [x]
  | [], _, _, _, hs => by
      rw [buildInTurn]
      exact GrowsTo.refl hs
  | t :: ts, _, _, _, hs => by
      rw [buildInTurn]
      exact .andThen (build_grown expand t hs) fun h x hx => buildInTurn_grown expand ts hx

theorem buildEach_grown (expand : Bool) : ∀ (ts : List Tree) {hidden : Bool} {g : Graph}
    {s : Nat}, s < g.size → (buildEach expand hidden g s ts).Grown g s id
  | [], _, _, _, _ => by
      rw [buildEach]
      exact ⟨.refl, fun _ hx => (List.not_mem_nil hx).elim⟩
  | t :: ts, _, _, _, hs => by
      rw [buildEach]
      exact .both (build_grown expand t hs) hs (fun h hs => buildEach_grown expand ts hs)
        fun _ _ => rfl

end

end Utterance
