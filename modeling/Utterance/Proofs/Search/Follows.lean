import Utterance.Proofs.Compile.Heads
import Utterance.Search.Basic

/-!
# Paths that follow a graph

`Graph.Follows g R a p b` says that the steps of `p` lead along edges of `g`
from `a` to `b`, and that at each of them the relation `R` holds between the
edge and the tokens matched there.  What a search promises about its paths is
such a relation.

In an ascending graph a path is a route with loops in between (`Follows.route`).
For every route there is a path without loops that matches exactly the words on
the way (`Route.exists_follows`).
-/

namespace Utterance

/-- All tokens that are matched on a path. -/
def Path.tokens (p : Path) : List String := p.flatMap PathStep.matched

namespace Graph

inductive Follows (g : Graph) (R : Edge → List String → Prop) : Nat → Path → Nat → Prop where
  | nil (a : Nat) : Follows g R a [] a
  | cons {a b c : Nat} {e : Edge} {matched : List String} {p : Path} :
      g.edge? a b = some e → R e matched → Follows g R b p c →
      Follows g R a (⟨a, b, matched⟩ :: p) c

/-- The intents whose labels are on the edges of a path. -/
def intentsOn (g : Graph) (p : Path) : List String :=
  p.filterMap fun s => (g.edge? s.source s.target).bind fun e => Label.intent? e.output

/-- The marks that a path spells, without those of loops. -/
def spelled (g : Graph) (p : Path) : List Mark :=
  p.flatMap fun s =>
    if s.source < s.target then ((g.mark? s.source s.target).getD Mark.silent).spelled else []

theorem spelled_cons_of_lt {g : Graph} {a b : Nat} {m : Mark} (hm : g.mark? a b = some m)
    (hlt : a < b) (matched : List String) (p : Path) :
    g.spelled (⟨a, b, matched⟩ :: p) = m.spelled ++ g.spelled p := by
  rw [spelled, List.flatMap_cons, if_pos hlt, hm]
  rfl

theorem spelled_cons_self (g : Graph) (a : Nat) (matched : List String) (p : Path) :
    g.spelled (⟨a, a, matched⟩ :: p) = g.spelled p := by
  rw [spelled, List.flatMap_cons, if_neg (Nat.lt_irrefl a)]
  rfl

namespace Follows

variable {g : Graph} {R S : Edge → List String → Prop} {a b c : Nat} {p q : Path}

theorem trans (hp : g.Follows R a p b) (hq : g.Follows R b q c) : g.Follows R a (p ++ q) c := by
  induction hp with
  | nil => exact hq
  | cons he hR _ ih => exact .cons he hR (ih hq)

theorem single {e : Edge} {matched : List String} (he : g.edge? a b = some e)
    (hR : R e matched) : g.Follows R a [⟨a, b, matched⟩] b := .cons he hR (.nil b)

/-- A path that leads elsewhere starts with an edge. -/
theorem exists_cons (hp : g.Follows R a p b) (hg : g.Valid) (hne : a ≠ b) :
    ∃ e ∈ g.edgesFrom a, ∃ matched q,
      p = ⟨a, e.target, matched⟩ :: q ∧ R e matched ∧ g.Follows R e.target q b := by
  cases hp with
  | nil => exact absurd rfl hne
  | @cons _ c _ e matched q he hR hq =>
      obtain rfl : e.target = c := (hg.of_edge? he).2
      exact ⟨e, hg.mem_edgesFrom.mpr he, matched, q, rfl, hR, hq⟩

/-- In an ascending graph a path is a route with loops in between. -/
theorem route (hp : g.Follows R a p b) (hg : g.Ascending) : g.Route a (g.spelled p) b := by
  induction hp with
  | nil a => exact .refl a
  | cons he _ _ ih =>
      have hm := mark?_of_edge? he
      rcases hg.lt_or_loop hm with hlt | ⟨rfl, -⟩
      · rw [spelled_cons_of_lt hm hlt]
        exact .step hm hlt ih
      · rw [spelled_cons_self]
        exact ih

end Follows

end Graph

/-! ## Paths that match word for word -/

/-- The word of the edge, if it hears one. -/
def Edge.words (e : Edge) : List String := if e.input = "" then [] else [e.input]

/-- Exactly the word of the edge is matched. -/
def Edge.Exactly (e : Edge) (matched : List String) : Prop := matched = e.words

theorem Edge.heardOf_mark (e : Edge) : heardOf e.mark.spelled = e.words := heardOf_spelled e.mark

namespace Graph

theorem Inputs.of_edge? {g : Graph} {P : String → Prop} (hg : g.Inputs P) {a b : Nat} {e : Edge}
    (he : g.edge? a b = some e) : P e.input := by
  obtain ⟨i, -, hi⟩ := Option.bind_eq_some_iff.mp he
  exact hg e (Array.mem_of_getElem? hi)

/-- The words that the edges of a path hear. -/
def inputsOn (g : Graph) (p : Path) : List String :=
  p.flatMap fun s => (g.edge? s.source s.target).elim [] Edge.words

theorem inputsOn_cons {g : Graph} {a b : Nat} {e : Edge} (he : g.edge? a b = some e)
    (matched : List String) (p : Path) :
    g.inputsOn (⟨a, b, matched⟩ :: p) = e.words ++ g.inputsOn p := by
  rw [inputsOn, List.flatMap_cons, he]
  rfl

/-- The path through the same states on which every edge has matched its word. -/
def voiced (g : Graph) (p : Path) : Path :=
  p.map fun s => { s with matched := (g.edge? s.source s.target).elim [] Edge.words }

theorem voiced_cons {g : Graph} {a b : Nat} {e : Edge} (he : g.edge? a b = some e)
    (matched : List String) (p : Path) :
    g.voiced (⟨a, b, matched⟩ :: p) = ⟨a, b, e.words⟩ :: g.voiced p := by
  rw [voiced, List.map_cons, he]
  rfl

theorem tokens_voiced (g : Graph) (p : Path) : (g.voiced p).tokens = g.inputsOn p := by
  rw [Path.tokens, voiced, List.flatMap_map]
  rfl

theorem states_voiced (g : Graph) (p : Path) :
    (g.voiced p).map (fun s => (s.source, s.target)) = p.map fun s => (s.source, s.target) := by
  rw [voiced, List.map_map]
  rfl

/-- Without wildcards there are no loops, and a path that matches word for word
matches the words on its way. -/
theorem Follows.tokens_eq {g : Graph} (hg : g.Ascending) (hwild : g.Inputs (· ≠ wildcard))
    {a b : Nat} {p : Path} (hp : g.Follows Edge.Exactly a p b) :
    p.tokens = heardOf (g.spelled p) := by
  induction hp with
  | nil => rfl
  | @cons a b c e matched p he hmatched _ ih =>
      have hm := mark?_of_edge? he
      rcases hg.lt_or_loop hm with hlt | ⟨-, hloop⟩
      · rw [spelled_cons_of_lt hm hlt, heardOf_append, Edge.heardOf_mark, ← ih,
          ← show matched = e.words from hmatched]
        rfl
      · exact absurd (congrArg Mark.input hloop) (hwild.of_edge? he)

/-- The mark of a step that leads on is spelled, unless it is silent. -/
theorem Follows.exists_spelled {g : Graph} (hg : g.Ascending) {R : Edge → List String → Prop}
    {a b : Nat} {p : Path} (hp : g.Follows R a p b) :
    ∀ s ∈ p, ∃ e, g.edge? s.source s.target = some e ∧ R e s.matched ∧
      (s.source < s.target → e.mark = Mark.silent ∨ e.mark ∈ g.spelled p) := by
  induction hp with
  | nil => exact fun _ hs => (List.not_mem_nil hs).elim
  | @cons a b c e matched p he hR _ ih =>
      have hm := mark?_of_edge? he
      intro s hs
      rcases List.mem_cons.mp hs with rfl | hs
      · refine ⟨e, he, hR, fun hlt => ?_⟩
        by_cases hsilent : e.mark = Mark.silent
        · exact .inl hsilent
        · rw [spelled_cons_of_lt hm hlt, Mark.spelled, if_neg hsilent]
          exact .inr List.mem_cons_self
      · obtain ⟨e', he', hR', hmark⟩ := ih s hs
        refine ⟨e', he', hR', fun hlt => (hmark hlt).imp_right fun hmem => ?_⟩
        rcases hg.lt_or_loop hm with hlt | ⟨rfl, -⟩
        · rw [spelled_cons_of_lt hm hlt]
          exact List.mem_append_right _ hmem
        · rw [spelled_cons_self]
          exact hmem

/-- Without wildcards every step has an edge whose mark is spelled, unless it is
silent. -/
theorem Follows.exists_mark {g : Graph} {R : Edge → List String → Prop} (hg : g.Ascending)
    (hwild : g.Inputs (· ≠ wildcard)) {a b : Nat} {p : Path} (hp : g.Follows R a p b) :
    ∀ s ∈ p, ∃ e, g.edge? s.source s.target = some e ∧
      (e.mark = Mark.silent ∨ e.mark ∈ g.spelled p) := by
  intro s hs
  obtain ⟨e, he, -, hmark⟩ := hp.exists_spelled hg s hs
  refine ⟨e, he, hmark ?_⟩
  rcases hg.lt_or_loop (mark?_of_edge? he) with hlt | ⟨-, hloop⟩
  · exact hlt
  · exact absurd (congrArg Mark.input hloop) (hwild.of_edge? he)

/-- For every route there is a path that matches word for word. -/
theorem Route.exists_follows {g : Graph} {a b : Nat} {ms : List Mark} (hr : g.Route a ms b) :
    ∃ p, g.Follows Edge.Exactly a p b ∧ p.length ≤ b - a ∧ g.spelled p = ms ∧
      p.tokens = heardOf ms := by
  induction hr with
  | refl a => exact ⟨[], .nil a, Nat.zero_le _, rfl, rfl⟩
  | @step a b c m ms hm hlt hr ih =>
      obtain ⟨p, hp, hlength, rfl, htokens⟩ := ih
      obtain ⟨e, he, rfl⟩ := exists_edge? hm
      refine ⟨⟨a, b, e.words⟩ :: p, .cons he rfl hp, ?_, spelled_cons_of_lt hm hlt _ _, ?_⟩
      · have hle := hr.le
        rw [List.length_cons]
        omega
      · rw [heardOf_append, Edge.heardOf_mark, ← htokens]
        rfl

/-! ## Trails

A search keeps for each of its visits the trail of the steps that led there, the
last one first.  The next visits come from edges to different states, so trails
that differ are followed by trails that differ. -/

theorem Valid.nodup_permitted {g : Graph} (hg : g.Valid) (o : SearchOptions) (s : Nat) :
    ((g.permitted o s).map Edge.target).Nodup :=
  (hg.single s).sublist (List.filter_sublist.map _)

end Graph

theorem nodup_trails {α : Type} {trail : α → Path} (edges : α → List Edge)
    {cross? : α → Edge → Option α} (hedges : ∀ a, ((edges a).map Edge.target).Nodup)
    (hcross : ∀ {a e b}, cross? a e = some b →
      ∃ s, trail b = s :: trail a ∧ s.target = e.target) {level : List α}
    (hlevel : (level.map trail).Nodup) :
    ((level.flatMap fun a => (edges a).filterMap (cross? a)).map trail).Nodup := by
  rw [List.map_flatMap, List.nodup_flatMap]
  refine ⟨fun a _ => ?_, ?_⟩
  · -- after one visit the last steps differ
    rw [List.Nodup, List.pairwise_map, List.pairwise_filterMap]
    refine (List.pairwise_map.mp (hedges a)).imp fun hne b hb c hc heq => hne ?_
    obtain ⟨s, hs, hs'⟩ := hcross hb
    obtain ⟨t, ht, ht'⟩ := hcross hc
    rw [hs, ht] at heq
    rw [← hs', ← ht', (List.cons.inj heq).1]
  · -- after different visits what comes before them does
    refine (List.pairwise_map.mp hlevel).imp fun {a a'} hne => ?_
    refine List.disjoint_left.mpr ?_
    intro p hp hp'
    obtain ⟨b, hb, rfl⟩ := List.mem_map.mp hp
    obtain ⟨c, hc, heq⟩ := List.mem_map.mp hp'
    obtain ⟨e, -, hb⟩ := List.mem_filterMap.mp hb
    obtain ⟨e', -, hc⟩ := List.mem_filterMap.mp hc
    obtain ⟨s, hs, -⟩ := hcross hb
    obtain ⟨t, ht, -⟩ := hcross hc
    rw [hs, ht] at heq
    exact hne (List.cons.inj heq).2.symm

end Utterance
