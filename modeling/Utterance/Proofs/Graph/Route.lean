import Utterance.Proofs.Graph.Edges
import Utterance.Template.Expr

/-!
# Ascending graphs and their routes

A *mark* is what one edge hears and says.  In an *ascending* graph every edge
leads to a state with a larger number, apart from the loops by which a wildcard
hears several words, and a state records the word that is heard on the way into
it; adding states and edges upwards keeps this.

A *route* leads along ascending edges from state to state and spells the marks
on its way, where edges that neither hear nor say anything are passed over.  A
route never comes down, so only the edges up to its end matter to it
(`Route.congr`).
-/

namespace Utterance

/-! ## Marks -/

/-- What an edge hears and says. -/
structure Mark where
  input : String
  output : String
deriving DecidableEq, Repr, Inhabited

namespace Mark

def silent : Mark := ⟨"", ""⟩

/-- The mark of the edge by which a wildcard hears more than one word. -/
def loop : Mark := ⟨wildcard, wildcard⟩

/-- The mark as a word; the silent one is the empty word. -/
def spelled (m : Mark) : List Mark := if m = silent then [] else [m]

@[simp] theorem spelled_silent : silent.spelled = [] := rfl

theorem eq_of_mem_spelled {m n : Mark} (h : n ∈ m.spelled) : n = m := by
  rw [spelled] at h
  split at h
  · exact (List.not_mem_nil h).elim
  · exact List.mem_singleton.mp h

end Mark

def Edge.mark (e : Edge) : Mark := ⟨e.input, e.output⟩

namespace Graph

/-- The mark of the edge between two states. -/
def mark? (g : Graph) (s t : Nat) : Option Mark := (g.edge? s t).map Edge.mark

theorem mark?_of_edge? {g : Graph} {s t : Nat} {e : Edge} (h : g.edge? s t = some e) :
    g.mark? s t = some e.mark := by
  rw [mark?, h, Option.map_some]

theorem exists_edge? {g : Graph} {s t : Nat} {m : Mark} (h : g.mark? s t = some m) :
    ∃ e, g.edge? s t = some e ∧ e.mark = m := Option.map_eq_some_iff.mp h

@[simp] theorem mark?_addState (g : Graph) (w : Option String) (s t : Nat) :
    (g.addState w).mark? s t = g.mark? s t := by
  rw [mark?, mark?, edge?_addState]

theorem Valid.mark?_addEdge {g : Graph} (hg : g.Valid) {s : Nat} (hs : s < g.size) (t : Nat)
    (i o : String) (a b : Nat) :
    (g.addEdge s t i o).mark? a b = if a = s ∧ b = t then some ⟨i, o⟩ else g.mark? a b := by
  rw [mark?, hg.edge?_addEdge hs]
  split
  · rfl
  · rfl

theorem Valid.mark?_modifyEdge {g : Graph} (hg : g.Valid) {f : Edge → Edge} (hf : Keeps f)
    (hmark : ∀ e, (f e).mark = e.mark) (s t a b : Nat) :
    (g.modifyEdge s t f).mark? a b = g.mark? a b := by
  rw [mark?, hg.edge?_modifyEdge hf]
  split
  next h =>
    rw [Option.map_map, show Edge.mark ∘ f = Edge.mark from funext hmark, h.1, h.2]
    rfl
  next => rfl

/-! ## Ascending graphs -/

/-- Edges lead to states with larger numbers, apart from those that a wildcard
hears in place, and a state records the word of the edges into it. -/
structure Ascending (g : Graph) : Prop where
  valid : g.Valid
  lt_or_loop : ∀ {a b m}, g.mark? a b = some m → a < b ∨ (a = b ∧ m = Mark.loop)
  lt_size : ∀ {a b m}, g.mark? a b = some m → b < g.size
  heard : ∀ {a b m}, g.mark? a b = some m → a < b → (g.word? b).getD "" = m.input

theorem ascending_empty : Ascending {} := by
  have hnone : ∀ a b, ({} : Graph).mark? a b = none := fun a b => by
    rw [mark?, edge?_of_size_le (Nat.zero_le a), Option.map_none]
  constructor
  case valid => exact valid_empty
  all_goals
    intro a b m h
    rw [hnone] at h
    cases h

namespace Ascending

variable {g : Graph}

theorem addState (hg : g.Ascending) (w : Option String) : (g.addState w).Ascending := by
  constructor
  case valid => exact hg.valid.addState w
  case lt_or_loop =>
    intro a b m h
    rw [mark?_addState] at h
    exact hg.lt_or_loop h
  case lt_size =>
    intro a b m h
    rw [mark?_addState] at h
    rw [size_addState]
    exact Nat.lt_succ_of_lt (hg.lt_size h)
  case heard =>
    intro a b m h hab
    rw [mark?_addState] at h
    rw [word?_addState_of_lt (hg.lt_size h)]
    exact hg.heard h hab

/-- An edge may be added upwards if its target records the word that it hears,
and in place if it is a wildcard's. -/
theorem addEdge (hg : g.Ascending) {s t : Nat} {i o : String} (ht : t < g.size)
    (hedge : (s < t ∧ (g.word? t).getD "" = i) ∨ (s = t ∧ (⟨i, o⟩ : Mark) = Mark.loop)) :
    (g.addEdge s t i o).Ascending := by
  have hs : s < g.size := by
    rcases hedge with h | h
    · exact Nat.lt_trans h.1 ht
    · exact h.1 ▸ ht
  have hcases : ∀ {a b m}, (g.addEdge s t i o).mark? a b = some m →
      (a = s ∧ b = t ∧ m = ⟨i, o⟩) ∨ g.mark? a b = some m := by
    intro a b m h
    rw [hg.valid.mark?_addEdge hs] at h
    split at h
    next hab => exact .inl ⟨hab.1, hab.2, (Option.some.inj h).symm⟩
    next => exact .inr h
  constructor
  case valid => exact hg.valid.addEdge hs t i o
  case lt_or_loop =>
    intro a b m h
    rcases hcases h with ⟨rfl, rfl, rfl⟩ | h
    · exact hedge.imp And.left id
    · exact hg.lt_or_loop h
  case lt_size =>
    intro a b m h
    rw [size_addEdge]
    rcases hcases h with ⟨-, rfl, -⟩ | h
    · exact ht
    · exact hg.lt_size h
  case heard =>
    intro a b m h hab
    rw [word?_addEdge]
    rcases hcases h with ⟨rfl, rfl, rfl⟩ | h
    · rcases hedge with hword | hloop
      · exact hword.2
      · exact absurd hloop.1 (Nat.ne_of_lt hab)
    · exact hg.heard h hab

theorem modifyEdge (hg : g.Ascending) {f : Edge → Edge} (hf : Keeps f)
    (hmark : ∀ e, (f e).mark = e.mark) (s t : Nat) : (g.modifyEdge s t f).Ascending := by
  have hsame := hg.valid.mark?_modifyEdge hf hmark s t
  constructor
  case valid => exact hg.valid.modifyEdge hf s t
  case lt_or_loop =>
    intro a b m h
    rw [hsame] at h
    exact hg.lt_or_loop h
  case lt_size =>
    intro a b m h
    rw [hsame] at h
    rw [size_modifyEdge]
    exact hg.lt_size h
  case heard =>
    intro a b m h hab
    rw [hsame] at h
    rw [word?_modifyEdge]
    exact hg.heard h hab

end Ascending

/-! ## Routes -/

/-- There is a way along ascending edges from one state to another that spells
the given marks. -/
inductive Route (g : Graph) : Nat → List Mark → Nat → Prop where
  | refl (a : Nat) : Route g a [] a
  | step {a b c : Nat} {m : Mark} {ms : List Mark} :
      g.mark? a b = some m → a < b → Route g b ms c → Route g a (m.spelled ++ ms) c

namespace Route

variable {g h : Graph} {a b c : Nat} {ms ns : List Mark} {m : Mark}

theorem le (hr : g.Route a ms b) : a ≤ b := by
  induction hr with
  | refl => exact Nat.le_refl _
  | step _ hlt _ ih => exact Nat.le_trans (Nat.le_of_lt hlt) ih

theorem trans (hr : g.Route a ms b) (hr' : g.Route b ns c) : g.Route a (ms ++ ns) c := by
  induction hr with
  | refl => exact hr'
  | step hm hlt _ ih =>
      rw [List.append_assoc]
      exact .step hm hlt (ih hr')

theorem single (hm : g.mark? a b = some m) (hlt : a < b) : g.Route a m.spelled b := by
  have hr := Route.step hm hlt (.refl b)
  rwa [List.append_nil] at hr

/-- A route either goes nowhere or has a last edge. -/
theorem eq_or_last (hr : g.Route a ms c) :
    (a = c ∧ ms = [])
      ∨ ∃ b m ns, g.Route a ns b ∧ g.mark? b c = some m ∧ b < c ∧ ms = ns ++ m.spelled := by
  induction hr with
  | refl => exact .inl ⟨rfl, rfl⟩
  | @step a b c m ms hm hlt hr ih =>
      right
      rcases ih with ⟨rfl, rfl⟩ | ⟨d, m', ns, hr', hm', hlt', rfl⟩
      · exact ⟨a, m, [], .refl a, hm, hlt, by rw [List.append_nil, List.nil_append]⟩
      · exact ⟨d, m', m.spelled ++ ns, .step hm hlt hr', hm', hlt', by rw [List.append_assoc]⟩

theorem nil_of_self (hr : g.Route a ms a) : ms = [] := by
  rcases hr.eq_or_last with ⟨-, hnil⟩ | ⟨b, m, ns, hr', -, hlt, -⟩
  · exact hnil
  · exact absurd hr'.le (Nat.not_le_of_lt hlt)

/-- Only the edges up to its end matter to a route. -/
theorem congr (hr : g.Route a ms c)
    (hsame : ∀ {a b}, a < b → b ≤ c → h.mark? a b = g.mark? a b) : h.Route a ms c := by
  induction hr with
  | refl => exact .refl _
  | step hm hlt hr ih =>
      refine .step ?_ hlt (ih hsame)
      rw [hsame hlt hr.le, hm]

end Route

end Graph

end Utterance
