import Mathlib.Data.Set.Function
import Utterance.Proofs.Search.Follows

/-!
# Graphs with edges cut in two

`Subdivides cut place g h` says that the graph `h` has, in the place of every edge of `g`, an
edge with another mark or two edges in a row, as `cut` says for the mark of the edge.  The states
of `g` are among those of `h`, in the same order, and between the halves of an edge there is a
state that no other edge touches.

So a path of `h` that begins and ends at states of `g` is made of what is in the place of the
edges of a path of `g`, and the paths correspond one to one (`Subdivides.bijOn`).  When a state
is added to `g` with edges from others, and to `h` what is in the place of these edges, the one
graph still subdivides the other (`Subdivides.grow`).
-/

namespace Utterance

open Utterance.Graph

/-! ## Cuts -/

/-- What is in the place of an edge: an edge, or two edges with a state between them. -/
inductive Cut where
  | whole (m : Mark)
  | halves (m n : Mark)

namespace Cut

/-- The edges of the cut between the states `a` and `b`, with their marks.  Halves meet in the state
before `b`. -/
def edges (a b : Nat) : Cut → List (Nat × Nat × Mark)
  | whole m => [(a, b, m)]
  | halves m n => [(a, b - 1, m), (b - 1, b, n)]

def marks : Cut → List Mark
  | whole m => [m]
  | halves m n => [m, n]

/-- The path along the cut from `a` to `b`. -/
def steps (a b : Nat) : Cut → Path
  | whole m => [⟨a, b, heardOf [m]⟩]
  | halves m n => [⟨a, b - 1, heardOf [m]⟩, ⟨b - 1, b, heardOf [n]⟩]

variable {a b u v : Nat} {m m' n : Mark}

@[simp] theorem mem_edges_whole :
    (u, v, n) ∈ (whole m).edges a b ↔ u = a ∧ v = b ∧ n = m := by
  rw [edges, List.mem_singleton, Prod.mk.injEq, Prod.mk.injEq]

@[simp] theorem mem_edges_halves :
    (u, v, n) ∈ (halves m m').edges a b ↔
      (u = a ∧ v = b - 1 ∧ n = m) ∨ (u = b - 1 ∧ v = b ∧ n = m') := by
  rw [edges, List.mem_pair, Prod.mk.injEq, Prod.mk.injEq, Prod.mk.injEq, Prod.mk.injEq]

theorem steps_ne_nil (a b : Nat) (c : Cut) : c.steps a b ≠ [] := by
  cases c with
  | whole => exact List.cons_ne_nil _ _
  | halves => exact List.cons_ne_nil _ _

end Cut

/-! ## Paths and their marks -/

theorem Edge.words_eq_heardOf (e : Edge) : e.words = heardOf [e.mark] := by
  rw [words, heardOf, List.map_singleton, List.filter_singleton]
  by_cases h : e.input = ""
  · simp [mark, h]
  · simp [mark, h]

namespace Graph

/-- The marks of the edges of a path, also those of loops. -/
def marksOn (g : Graph) (p : Path) : List Mark := p.filterMap fun s => g.mark? s.source s.target

variable {g g' h h' : Graph} {a b c : Nat} {m : Mark} {p q : Path}

theorem marksOn_cons (hm : g.mark? a b = some m) (matched : List String) (p : Path) :
    g.marksOn (⟨a, b, matched⟩ :: p) = m :: g.marksOn p := List.filterMap_cons_some hm

theorem marksOn_append (g : Graph) (p q : Path) :
    g.marksOn (p ++ q) = g.marksOn p ++ g.marksOn q := List.filterMap_append

theorem Follows.cons_mark (hm : g.mark? a b = some m) (hp : g.Follows Edge.Exactly b p c) :
    g.Follows Edge.Exactly a (⟨a, b, heardOf [m]⟩ :: p) c := by
  obtain ⟨e, he, rfl⟩ := exists_edge? hm
  exact .cons he e.words_eq_heardOf.symm hp

/-- A path that matches word for word goes nowhere or begins with an edge. -/
theorem Follows.eq_nil_or_cons_mark (hp : g.Follows Edge.Exactly a p c) :
    (a = c ∧ p = []) ∨ ∃ b m q, g.mark? a b = some m ∧ p = ⟨a, b, heardOf [m]⟩ :: q ∧
      g.Follows Edge.Exactly b q c := by
  cases hp with
  | nil => exact .inl ⟨rfl, rfl⟩
  | @cons _ b _ e matched q he hmatched hq =>
      obtain rfl : matched = heardOf [e.mark] := hmatched.trans e.words_eq_heardOf
      exact .inr ⟨b, e.mark, q, mark?_of_edge? he, rfl, hq⟩

theorem source_lt_of_mark? (hm : g.mark? a b = some m) : a < g.size := by
  by_contra hle
  rw [mark?, edge?_of_size_le (Nat.le_of_not_lt hle)] at hm
  cases hm

/-! ## Subdivisions -/

/-- In the place of the edges of `g` the graph `h` has what `cut` says.  The state `a` of `g` is
the state `place a` of `h`. -/
structure Subdivides (cut : Mark → Cut) (place : Nat → Nat) (g h : Graph) : Prop where
  before : g.Ascending
  after : h.Ascending
  lt_size : ∀ {a}, a < g.size → place a < h.size
  mono : ∀ {a b}, a < b → b < g.size → place a < place b
  /-- The state between two halves is in the place of no other state. -/
  between : ∀ {a b m n n'}, g.mark? a b = some m → cut m = .halves n n' →
    ∃ k, place b = k + 1 ∧ ∀ c < g.size, place c ≠ k
  mark_iff : ∀ {u v n}, h.mark? u v = some n ↔
    ∃ a b m, g.mark? a b = some m ∧ (u, v, n) ∈ (cut m).edges (place a) (place b)

/-- What is in the place of a path. -/
def subdivide (cut : Mark → Cut) (place : Nat → Nat) (g : Graph) (p : Path) : Path :=
  p.flatMap fun s => ((g.mark? s.source s.target).map fun m =>
    (cut m).steps (place s.source) (place s.target)).getD []

variable {cut : Mark → Cut} {place : Nat → Nat}

theorem subdivide_cons (hm : g.mark? a b = some m) (matched : List String) (p : Path) :
    subdivide cut place g (⟨a, b, matched⟩ :: p) =
      (cut m).steps (place a) (place b) ++ subdivide cut place g p := by
  rw [subdivide, List.flatMap_cons, hm]
  rfl

namespace Subdivides

theorem place_inj (S : Subdivides cut place g h) (ha : a < g.size) (hb : b < g.size)
    (heq : place a = place b) : a = b := by
  rcases Nat.lt_trichotomy a b with hlt | rfl | hlt
  · exact absurd heq (Nat.ne_of_lt (S.mono hlt hb))
  · rfl
  · exact absurd heq (Nat.ne_of_gt (S.mono hlt ha))

theorem mark?_whole (S : Subdivides cut place g h) (hm : g.mark? a b = some m) {n : Mark}
    (hcut : cut m = .whole n) : h.mark? (place a) (place b) = some n := by
  refine S.mark_iff.mpr ⟨a, b, m, hm, ?_⟩
  rw [hcut, Cut.mem_edges_whole]
  exact ⟨rfl, rfl, rfl⟩

theorem mark?_halves (S : Subdivides cut place g h) (hm : g.mark? a b = some m) {n n' : Mark}
    (hcut : cut m = .halves n n') :
    h.mark? (place a) (place b - 1) = some n ∧ h.mark? (place b - 1) (place b) = some n' := by
  constructor
  · refine S.mark_iff.mpr ⟨a, b, m, hm, ?_⟩
    rw [hcut, Cut.mem_edges_halves]
    exact .inl ⟨rfl, rfl, rfl⟩
  · refine S.mark_iff.mpr ⟨a, b, m, hm, ?_⟩
    rw [hcut, Cut.mem_edges_halves]
    exact .inr ⟨rfl, rfl, rfl⟩

/-! ### Paths -/

theorem follows_steps (S : Subdivides cut place g h) (hm : g.mark? a b = some m)
    (hq : h.Follows Edge.Exactly (place b) q c) :
    h.Follows Edge.Exactly (place a) ((cut m).steps (place a) (place b) ++ q) c := by
  cases hcut : cut m with
  | whole n => exact .cons_mark (S.mark?_whole hm hcut) hq
  | halves n n' =>
      obtain ⟨hfirst, hsecond⟩ := S.mark?_halves hm hcut
      exact .cons_mark hfirst (.cons_mark hsecond hq)

theorem marksOn_steps (S : Subdivides cut place g h) (hm : g.mark? a b = some m) :
    h.marksOn ((cut m).steps (place a) (place b)) = (cut m).marks := by
  cases hcut : cut m with
  | whole n => exact marksOn_cons (S.mark?_whole hm hcut) _ []
  | halves n n' =>
      obtain ⟨hfirst, hsecond⟩ := S.mark?_halves hm hcut
      rw [Cut.steps, marksOn_cons hfirst, marksOn_cons hsecond]
      rfl

theorem follows_subdivide (S : Subdivides cut place g h) (hp : g.Follows Edge.Exactly a p c) :
    h.Follows Edge.Exactly (place a) (subdivide cut place g p) (place c) := by
  induction hp with
  | nil => exact .nil _
  | cons he _ _ ih =>
      have hm := mark?_of_edge? he
      rw [subdivide_cons hm]
      exact S.follows_steps hm ih

/-- In the place of the marks on a path are those of the cuts. -/
theorem marksOn_subdivide (S : Subdivides cut place g h) (hp : g.Follows Edge.Exactly a p c) :
    h.marksOn (subdivide cut place g p) = (g.marksOn p).flatMap fun m => (cut m).marks := by
  induction hp with
  | nil => rfl
  | cons he _ _ ih =>
      have hm := mark?_of_edge? he
      rw [subdivide_cons hm, marksOn_append, S.marksOn_steps hm, ih, marksOn_cons hm,
        List.flatMap_cons]

/-- From the state between two halves only the second one goes on. -/
theorem eq_of_mark?_between (S : Subdivides cut place g h) (hm : g.mark? a b = some m)
    {n n' : Mark} (hcut : cut m = .halves n n') {w : Nat} {m' : Mark}
    (hm' : h.mark? (place b - 1) w = some m') : w = place b ∧ m' = n' := by
  obtain ⟨k, hk, hfree⟩ := S.between hm hcut
  obtain ⟨a', b', m₁, hm₁, hmem⟩ := S.mark_iff.mp hm'
  have ha' := source_lt_of_mark? hm₁
  have hw : w = place b := by
    cases hcut₁ : cut m₁ with
    | whole _ =>
        rw [hcut₁, Cut.mem_edges_whole] at hmem
        exact (hfree a' ha' (by omega)).elim
    | halves _ _ =>
        obtain ⟨k', hk', -⟩ := S.between hm₁ hcut₁
        rw [hcut₁, Cut.mem_edges_halves] at hmem
        rcases hmem with ⟨heq, -⟩ | ⟨heq, hw, -⟩
        · exact (hfree a' ha' (by omega)).elim
        · omega
  subst hw
  exact ⟨rfl, Option.some.inj (hm'.symm.trans (S.mark?_halves hm hcut).2)⟩

/-- A path between states of `g` begins with what is in the place of one of its edges. -/
theorem exists_steps (S : Subdivides cut place g h) (ha : a < g.size) (hc : c < g.size)
    (hq : h.Follows Edge.Exactly (place a) q (place c)) :
    (a = c ∧ q = []) ∨ ∃ b m q', g.mark? a b = some m ∧
      q = (cut m).steps (place a) (place b) ++ q' ∧
      h.Follows Edge.Exactly (place b) q' (place c) := by
  rcases hq.eq_nil_or_cons_mark with ⟨heq, rfl⟩ | ⟨v, n, q₁, hn, rfl, hq₁⟩
  · exact .inl ⟨S.place_inj ha hc heq, rfl⟩
  right
  obtain ⟨a', b, m, hm, hmem⟩ := S.mark_iff.mp hn
  have ha' := source_lt_of_mark? hm
  cases hcut : cut m with
  | whole n' =>
      rw [hcut, Cut.mem_edges_whole] at hmem
      obtain ⟨heq, rfl, rfl⟩ := hmem
      obtain rfl := S.place_inj ha ha' heq
      exact ⟨b, m, q₁, hm, by rw [hcut]; rfl, hq₁⟩
  | halves n₁ n₂ =>
      obtain ⟨k, hk, hfree⟩ := S.between hm hcut
      rw [hcut, Cut.mem_edges_halves] at hmem
      rcases hmem with ⟨heq, rfl, rfl⟩ | ⟨heq, -⟩
      · obtain rfl := S.place_inj ha ha' heq
        rcases hq₁.eq_nil_or_cons_mark with ⟨hend, -⟩ | ⟨w, n', q₂, hn', rfl, hq₂⟩
        · exact (hfree c hc (by omega)).elim
        obtain ⟨rfl, rfl⟩ := S.eq_of_mark?_between hm hcut hn'
        exact ⟨b, m, q₂, hm, by rw [hcut]; rfl, hq₂⟩
      · exact (hfree a ha (by omega)).elim

/-- The first edge of a path of `g` is told by what is in its place. -/
theorem steps_append_inj (S : Subdivides cut place g h) {b' : Nat} {m' : Mark} {q' : Path}
    (hm : g.mark? a b = some m) (hm' : g.mark? a b' = some m')
    (heq : (cut m).steps (place a) (place b) ++ q = (cut m').steps (place a) (place b') ++ q') :
    b = b' ∧ q = q' := by
  have hb := S.before.lt_size hm
  have hb' := S.before.lt_size hm'
  have htargets : b = b' := by
    cases hcut : cut m with
    | whole _ =>
        cases hcut' : cut m' with
        | whole _ =>
            rw [hcut, hcut'] at heq
            exact S.place_inj hb hb' (PathStep.mk.inj (List.cons.inj heq).1).2.1
        | halves _ _ =>
            obtain ⟨k, hk, hfree⟩ := S.between hm' hcut'
            rw [hcut, hcut'] at heq
            have htarget := (PathStep.mk.inj (List.cons.inj heq).1).2.1
            exact (hfree b hb (by omega)).elim
    | halves _ _ =>
        obtain ⟨k, hk, hfree⟩ := S.between hm hcut
        cases hcut' : cut m' with
        | whole _ =>
            rw [hcut, hcut'] at heq
            have htarget := (PathStep.mk.inj (List.cons.inj heq).1).2.1
            exact (hfree b' hb' (by omega)).elim
        | halves _ _ =>
            obtain ⟨k', hk', -⟩ := S.between hm' hcut'
            rw [hcut, hcut'] at heq
            have htarget := (PathStep.mk.inj (List.cons.inj heq).1).2.1
            exact S.place_inj hb hb' (by omega)
  obtain rfl := htargets
  obtain rfl := Option.some.inj (hm.symm.trans hm')
  exact ⟨rfl, List.append_cancel_left heq⟩

theorem subdivide_inj (S : Subdivides cut place g h) {c' : Nat}
    (hp : g.Follows Edge.Exactly a p c) (hq : g.Follows Edge.Exactly a q c')
    (heq : subdivide cut place g p = subdivide cut place g q) : p = q := by
  induction p generalizing a q with
  | nil =>
      rcases hq.eq_nil_or_cons_mark with ⟨-, rfl⟩ | ⟨b, m, q, hm, rfl, -⟩
      · rfl
      · rw [subdivide_cons hm] at heq
        exact (Cut.steps_ne_nil _ _ _ (List.append_eq_nil_iff.mp heq.symm).1).elim
  | cons s p ih =>
      rcases hp.eq_nil_or_cons_mark with ⟨-, hnil⟩ | ⟨b, m, p', hm, hcons, hp'⟩
      · cases hnil
      cases hcons
      rw [subdivide_cons hm] at heq
      rcases hq.eq_nil_or_cons_mark with ⟨-, rfl⟩ | ⟨b', m', q', hm', rfl, hq'⟩
      · exact (Cut.steps_ne_nil _ _ _ (List.append_eq_nil_iff.mp heq).1).elim
      rw [subdivide_cons hm'] at heq
      obtain ⟨rfl, hrest⟩ := S.steps_append_inj hm hm' heq
      obtain rfl := Option.some.inj (hm.symm.trans hm')
      rw [ih hp' hq' hrest]

/-- Every path between states of `g` is in the place of one.  The induction is on its length, as
two of its steps may be in the place of one. -/
theorem exists_subdivide (S : Subdivides cut place g h) (hc : c < g.size) :
    ∀ (n : Nat) {a : Nat} {q : Path}, q.length = n → a < g.size →
      h.Follows Edge.Exactly (place a) q (place c) →
      ∃ p, g.Follows Edge.Exactly a p c ∧ subdivide cut place g p = q := by
  intro n
  induction n using Nat.strong_induction_on with
  | _ n ih =>
      intro a q hlength ha hq
      rcases S.exists_steps ha hc hq with ⟨rfl, rfl⟩ | ⟨b, m, q', hm, rfl, hq'⟩
      · exact ⟨[], .nil a, rfl⟩
      · have hpos := List.length_pos_of_ne_nil (Cut.steps_ne_nil (place a) (place b) (cut m))
        rw [List.length_append] at hlength
        obtain ⟨p, hp, rfl⟩ := ih q'.length (by omega) rfl (S.before.lt_size hm) hq'
        exact ⟨_, .cons_mark hm hp, subdivide_cons hm _ _⟩

/-- The paths between two states correspond one to one. -/
theorem bijOn (S : Subdivides cut place g h) (ha : a < g.size) (hc : c < g.size) :
    Set.BijOn (subdivide cut place g) {p | g.Follows Edge.Exactly a p c}
      {q | h.Follows Edge.Exactly (place a) q (place c)} := by
  refine ⟨fun p hp => S.follows_subdivide hp, fun p hp q hq heq => S.subdivide_inj hp hq heq, ?_⟩
  intro q hq
  exact S.exists_subdivide hc q.length rfl ha hq

end Subdivides

/-! ## Adding to both graphs -/

/-- The graph `g'` has the edges of `g` and the given ones, and no others. -/
def Adds (g g' : Graph) (new : List (Nat × Nat × Mark)) : Prop :=
  ∀ a b m, g'.mark? a b = some m ↔ (a, b, m) ∈ new ∨ g.mark? a b = some m

namespace Adds

variable {new : List (Nat × Nat × Mark)}

theorem addState (g : Graph) (w : Option String) : g.Adds (g.addState w) [] := fun a b m => by
  rw [mark?_addState]
  exact (or_iff_right List.not_mem_nil).symm

/-- An edge may be added where there is none, or once more. -/
theorem addEdge (A : g.Adds g' new) (hg' : g'.Valid) {s t : Nat} {i o : String}
    (hs : s < g'.size) (hfree : ∀ m, g'.mark? s t = some m → m = ⟨i, o⟩) :
    g.Adds (g'.addEdge s t i o) ((s, t, ⟨i, o⟩) :: new) := fun a b m => by
  rw [hg'.mark?_addEdge hs, List.mem_cons, or_assoc, ← A, Prod.mk.injEq, Prod.mk.injEq]
  split
  next hedge =>
    obtain ⟨rfl, rfl⟩ := hedge
    constructor
    · rintro ⟨⟩
      exact .inl ⟨rfl, rfl, rfl⟩
    · rintro (⟨-, -, rfl⟩ | hm)
      · rfl
      · rw [hfree m hm]
  next hedge => exact (or_iff_right fun h => hedge ⟨h.1, h.2.1⟩).symm

/-- What is added to what has been added. -/
theorem trans {k : Graph} {more : List (Nat × Nat × Mark)} (A : g.Adds g' new)
    (B : g'.Adds k more) : g.Adds k (more ++ new) := fun a b m => by
  rw [B, A, List.mem_append, or_assoc]

end Adds

/-! ### What the builder adds -/

section

variable {s : Nat}

theorem size_emit (g : Graph) (s : Nat) (label : String) :
    (g.emit s label).1.size = g.size + 1 := by
  rw [emit, size_addEdge, size_addState]

theorem size_addWord (g : Graph) (s : Nat) (text label : String) :
    (g.addWord s text label).1.size = g.size + 1 := by
  unfold addWord
  dsimp only
  split
  · rw [size_addEdge, size_addEdge, size_addState]
  · rw [size_addEdge, size_addState]

theorem adds_emit (hg : g.Ascending) (hs : s < g.size) (label : String) :
    g.Adds (g.emit s label).1 [(s, g.size, ⟨"", Label.pack label⟩)] := by
  have hs' : s < (g.addState).size := by
    rw [size_addState]
    exact Nat.lt_succ_of_lt hs
  refine (Adds.addState g .none).addEdge (hg.addState .none).valid hs' fun m hm => ?_
  rw [mark?_addState] at hm
  exact absurd (hg.lt_size hm) (Nat.lt_irrefl _)

/-- A wildcard adds a loop, too, if there is none. -/
theorem adds_addWord (hg : g.Ascending) (hs : s < g.size) (text label : String) :
    g.Adds (g.addWord s text label).1
      ((s, g.size, ⟨text, label⟩) :: if text = wildcard then [(s, s, Mark.loop)] else []) := by
  have hh := hg.addState (some text)
  have hs' : s < (g.addState (some text)).size := by
    rw [size_addState]
    exact Nat.lt_succ_of_lt hs
  have hnone : ∀ m, g.mark? s g.size = some m → m = ⟨text, label⟩ := fun m hm =>
    absurd (hg.lt_size hm) (Nat.lt_irrefl _)
  by_cases hwild : text = wildcard
  · have hloop := hh.addEdge hs' (.inr ⟨rfl, rfl⟩ : _ ∨ (s = s ∧ (⟨wildcard, wildcard⟩ : Mark) = _))
    have hbeq : (text == wildcard) = true := beq_iff_eq.mpr hwild
    rw [if_pos hwild]
    simp only [addWord, if_pos hbeq]
    refine ((Adds.addState g _).addEdge hh.valid hs' fun m hm => ?_).addEdge hloop.valid
      (by rw [size_addEdge]; exact hs') fun m hm => ?_
    · rw [mark?_addState] at hm
      exact ((hg.lt_or_loop hm).resolve_left (Nat.lt_irrefl s)).2
    · rw [hh.valid.mark?_addEdge hs', if_neg fun h => Nat.ne_of_gt hs h.2, mark?_addState] at hm
      exact hnone m hm
  · have hbeq : ¬(text == wildcard) = true := fun h => hwild (eq_of_beq h)
    rw [if_neg hwild]
    simp only [addWord, if_neg hbeq]
    refine (Adds.addState g _).addEdge hh.valid hs' fun m hm => ?_
    rw [mark?_addState] at hm
    exact hnone m hm

end

/-- Joining states adds silent edges from them to the new one. -/
theorem adds_join {h : Graph} (hh : h.Ascending) {xs : List Nat} (hxs : ∀ x ∈ xs, x < h.size) :
    h.Adds (h.join xs).1 (xs.map fun x => (x, h.size, Mark.silent)) := fun a b m => by
  have hmem : (a, b, m) ∈ xs.map (fun x => (x, h.size, Mark.silent)) ↔
      a ∈ xs ∧ b = h.size ∧ m = Mark.silent := by
    rw [List.mem_map]
    constructor
    · rintro ⟨x, hx, heq⟩
      cases heq
      exact ⟨hx, rfl, rfl⟩
    · rintro ⟨ha, rfl, rfl⟩
      exact ⟨a, ha, rfl⟩
  rw [hmem]
  by_cases hb : b = h.size
  · subst hb
    have hnone : ¬h.mark? a h.size = some m := fun hm => Nat.lt_irrefl _ (hh.lt_size hm)
    rw [mark?_join_eq_some_iff hh hxs, or_iff_left hnone, and_iff_right rfl]
  · rw [(join_spec hh hxs).2.2.2, if_neg fun h => hb h.2]
    exact (or_iff_right fun h => hb h.2.1).symm

namespace Subdivides

/-- A state is added to `g` with edges, and to `h` what is in the place of these edges.  The last
state of `h` is in the place of the new one; the state before it is new, too, if an edge is
cut in two. -/
theorem grow (S : Subdivides cut place g h) {k : Nat} {new : List (Nat × Nat × Mark)}
    (hg' : g'.Ascending) (hh' : h'.Ascending) (hsize : g'.size = g.size + 1)
    (hsize' : h'.size = k + 1) (hk : h.size ≤ k) (A : g.Adds g' new)
    (A' : h.Adds h' (new.flatMap fun e => (cut e.2.2).edges
      (Function.update place g.size k e.1) (Function.update place g.size k e.2.1)))
    (hhalves : ∀ {a b m n n'}, (a, b, m) ∈ new → cut m = .halves n n' →
      b = g.size ∧ k = h.size + 1) :
    Subdivides cut (Function.update place g.size k) g' h' := by
  have hold : ∀ {a}, a < g.size → Function.update place g.size k a = place a := fun ha =>
    Function.update_of_ne (Nat.ne_of_lt ha) _ _
  have hnew : Function.update place g.size k g.size = k := Function.update_self _ _ _
  constructor
  case before => exact hg'
  case after => exact hh'
  case lt_size =>
    intro a ha
    rcases Nat.lt_succ_iff_lt_or_eq.mp (hsize ▸ ha) with ha | rfl
    · have hlt := S.lt_size ha
      rw [hold ha]
      omega
    · rw [hnew]
      omega
  case mono =>
    intro a b hab hb
    rcases Nat.lt_succ_iff_lt_or_eq.mp (hsize ▸ hb) with hb | rfl
    · rw [hold hb, hold (Nat.lt_trans hab hb)]
      exact S.mono hab hb
    · rw [hnew, hold hab]
      exact Nat.lt_of_lt_of_le (S.lt_size hab) hk
  case between =>
    intro a b m n n' hm hcut
    rcases (A _ _ _).mp hm with hmem | hm
    · obtain ⟨rfl, rfl⟩ := hhalves hmem hcut
      refine ⟨h.size, hnew, fun c hc => ?_⟩
      rcases Nat.lt_succ_iff_lt_or_eq.mp (hsize ▸ hc) with hc | rfl
      · rw [hold hc]
        exact Nat.ne_of_lt (S.lt_size hc)
      · rw [hnew]
        exact Nat.succ_ne_self _
    · obtain ⟨j, hj, hfree⟩ := S.between hm hcut
      have hb := S.before.lt_size hm
      have hlt := S.lt_size hb
      refine ⟨j, by rw [hold hb, hj], fun c hc => ?_⟩
      rcases Nat.lt_succ_iff_lt_or_eq.mp (hsize ▸ hc) with hc | rfl
      · rw [hold hc]
        exact hfree c hc
      · rw [hnew]
        omega
  case mark_iff =>
    intro u v n
    rw [A', List.mem_flatMap, S.mark_iff]
    constructor
    · rintro (⟨⟨a, b, m⟩, hmem, hedge⟩ | ⟨a, b, m, hm, hedge⟩)
      · exact ⟨a, b, m, (A _ _ _).mpr (.inl hmem), hedge⟩
      · refine ⟨a, b, m, (A _ _ _).mpr (.inr hm), ?_⟩
        rwa [hold (source_lt_of_mark? hm), hold (S.before.lt_size hm)]
    · rintro ⟨a, b, m, hm, hedge⟩
      rcases (A _ _ _).mp hm with hmem | hm
      · exact .inl ⟨(a, b, m), hmem, hedge⟩
      · rw [hold (source_lt_of_mark? hm), hold (S.before.lt_size hm)] at hedge
        exact .inr ⟨a, b, m, hm, hedge⟩

end Subdivides

end Graph

end Utterance
