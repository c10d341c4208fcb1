import Mathlib.Computability.Language
import Utterance.Compile.Build
import Utterance.Proofs.Graph.Route

/-!
# Extensions of a graph

`Extends g h s exits L` says what building from the state `s` does to a graph
`g`: the result `h` has the same edges among the old states and out of all old
states but `s`, and its routes from `s` to one of the exits spell exactly the
language `L`.

The first two clauses mean that the routes to a state no longer change once the
state is there (`Extends.route_iff`), and that a route into the new part comes
through `s` (`Extends.route_through`).  So extensions compose as the operations
on languages do: one after the other (`Extends.trans`), side by side
(`Extends.union`), joined in a new state (`Extends.join`), and from single
edges (`extends_of_edge`).
-/

namespace Utterance

namespace Graph

structure Extends (g h : Graph) (s : Nat) (exits : List Nat) (L : Language Mark) : Prop where
  before : g.Ascending
  ascending : h.Ascending
  size_le : g.size ≤ h.size
  start_eq : h.start = g.start
  old : ∀ {a b}, a < b → b < g.size → h.mark? a b = g.mark? a b
  kept : ∀ {a b}, a < g.size → a ≠ s → h.mark? a b = g.mark? a b
  exits_new : ∀ x ∈ exits, x = s ∨ (g.size ≤ x ∧ x < h.size)
  spells : ∀ ms, ms ∈ L ↔ ∃ x ∈ exits, h.Route s ms x

namespace Extends

variable {g h k : Graph} {s x : Nat} {xs ys : List Nat} {L M : Language Mark}

/-- Nothing is built: the language is that of the empty word. -/
theorem refl (hg : g.Ascending) (s : Nat) : Extends g g s [s] 1 where
  before := hg
  ascending := hg
  size_le := Nat.le_refl _
  start_eq := rfl
  old _ _ := rfl
  kept _ _ := rfl
  exits_new x hx := .inl (List.mem_singleton.mp hx)
  spells ms := by
    rw [Language.mem_one]
    refine ⟨?_, ?_⟩
    · rintro rfl
      exact ⟨s, List.mem_singleton_self s, .refl s⟩
    · rintro ⟨x, hx, hr⟩
      obtain rfl := List.mem_singleton.mp hx
      exact hr.nil_of_self

/-- Without exits the language is empty. -/
theorem none (hg : g.Ascending) (s : Nat) : Extends g g s [] 0 where
  before := hg
  ascending := hg
  size_le := Nat.le_refl _
  start_eq := rfl
  old _ _ := rfl
  kept _ _ := rfl
  exits_new x hx := (List.not_mem_nil hx).elim
  spells ms := by
    refine ⟨fun h => (Language.notMem_zero ms h).elim, ?_⟩
    rintro ⟨x, hx, -⟩
    exact (List.not_mem_nil hx).elim

theorem exit_lt (E : Extends g h s xs L) (hs : s < g.size) (hx : x ∈ xs) : x < h.size := by
  rcases E.exits_new x hx with rfl | ⟨-, hlt⟩
  · exact Nat.lt_of_lt_of_le hs E.size_le
  · exact hlt

/-- New states are entered from `s` and from new states only. -/
theorem entered (E : Extends g h s xs L) {a b : Nat} {m : Mark} (hm : h.mark? a b = some m)
    (hb : g.size ≤ b) : a = s ∨ g.size ≤ a := by
  by_contra hold
  obtain ⟨has, ha⟩ := not_or.mp hold
  rw [E.kept (Nat.lt_of_not_le ha) has] at hm
  exact absurd (E.before.lt_size hm) (Nat.not_lt_of_le hb)

/-- Routes to an old state are as before. -/
theorem route_iff (E : Extends g h s xs L) {a b : Nat} {ms : List Mark} (hb : b < g.size) :
    h.Route a ms b ↔ g.Route a ms b :=
  ⟨fun hr => hr.congr fun hab hbc => (E.old hab (Nat.lt_of_le_of_lt hbc hb)).symm,
   fun hr => hr.congr fun hab hbc => E.old hab (Nat.lt_of_le_of_lt hbc hb)⟩

/-- A route from an old state to a new one comes through the state from which
the extension was built. -/
theorem route_through (E : Extends g h s xs L) {a b : Nat} {ms : List Mark}
    (hr : h.Route a ms b) (ha : a < g.size) (hb : g.size ≤ b) :
    ∃ l m, h.Route a l s ∧ h.Route s m b ∧ ms = l ++ m := by
  induction hr with
  | refl => exact absurd ha (Nat.not_lt_of_le hb)
  | @step a c b m ms hm hlt hr ih =>
      by_cases hc : c < g.size
      · obtain ⟨l, n, hl, hn, rfl⟩ := ih hc hb
        exact ⟨m.spelled ++ l, n, .step hm hlt hl, hn, by rw [List.append_assoc]⟩
      · rcases E.entered hm (Nat.le_of_not_lt hc) with rfl | hle
        · exact ⟨[], m.spelled ++ ms, .refl _, .step hm hlt hr, rfl⟩
        · exact absurd ha (Nat.not_lt_of_le hle)

/-- What is spelled by an extension from the exit of another one comes after
what is spelled on the way to that exit. -/
theorem trans (E : Extends g h s [x] L) (F : Extends h k x ys M) (hs : s < g.size) :
    Extends g k s ys (L * M) := by
  have hxmem : x ∈ [x] := List.mem_singleton_self x
  have hx : x < h.size := E.exit_lt hs hxmem
  have hxs : x = s ∨ g.size ≤ x := (E.exits_new x hxmem).imp_right And.left
  constructor
  case before => exact E.before
  case ascending => exact F.ascending
  case size_le => exact Nat.le_trans E.size_le F.size_le
  case start_eq => rw [F.start_eq, E.start_eq]
  case old =>
    intro a b hab hb
    rw [F.old hab (Nat.lt_of_lt_of_le hb E.size_le), E.old hab hb]
  case kept =>
    intro a b ha has
    have hax : a ≠ x := by
      rcases hxs with rfl | hle
      · exact has
      · exact Nat.ne_of_lt (Nat.lt_of_lt_of_le ha hle)
    rw [F.kept (Nat.lt_of_lt_of_le ha E.size_le) hax, E.kept ha has]
  case exits_new =>
    intro y hy
    rcases F.exits_new y hy with rfl | ⟨hle, hlt⟩
    · exact hxs.imp_right fun hle => ⟨hle, Nat.lt_of_lt_of_le hx F.size_le⟩
    · exact .inr ⟨Nat.le_trans E.size_le hle, hlt⟩
  case spells =>
    intro ms
    rw [Language.mem_mul]
    refine ⟨?_, ?_⟩
    · rintro ⟨l, hl, m, hm, rfl⟩
      obtain ⟨x', hx', hr⟩ := (E.spells l).mp hl
      obtain rfl := List.mem_singleton.mp hx'
      obtain ⟨y, hy, hr'⟩ := (F.spells m).mp hm
      exact ⟨y, hy, ((F.route_iff hx).mpr hr).trans hr'⟩
    · rintro ⟨y, hy, hr⟩
      -- a route that ends where the second extension starts uses none of it
      rcases F.exits_new y hy with rfl | ⟨hle, -⟩
      · refine ⟨ms, (E.spells ms).mpr ⟨y, hxmem, (F.route_iff hx).mp hr⟩, [], ?_, by simp⟩
        exact (F.spells []).mpr ⟨y, hy, .refl y⟩
      · have hsh : s < h.size := Nat.lt_of_lt_of_le hs E.size_le
        obtain ⟨l, m, hl, hm, rfl⟩ := F.route_through hr hsh hle
        exact ⟨l, (E.spells l).mpr ⟨x, hxmem, (F.route_iff hx).mp hl⟩,
          m, (F.spells m).mpr ⟨y, hy, hm⟩, rfl⟩

/-- Two extensions from one state spell what either of them does. -/
theorem union (E : Extends g h s xs L) (F : Extends h k s ys M) (hs : s < g.size) :
    Extends g k s (xs ++ ys) (L + M) := by
  have hold : ∀ {y : Nat} {ms : List Mark}, y ∈ xs → (k.Route s ms y ↔ h.Route s ms y) :=
    fun hy => F.route_iff (E.exit_lt hs hy)
  constructor
  case before => exact E.before
  case ascending => exact F.ascending
  case size_le => exact Nat.le_trans E.size_le F.size_le
  case start_eq => rw [F.start_eq, E.start_eq]
  case old =>
    intro a b hab hb
    rw [F.old hab (Nat.lt_of_lt_of_le hb E.size_le), E.old hab hb]
  case kept =>
    intro a b ha has
    rw [F.kept (Nat.lt_of_lt_of_le ha E.size_le) has, E.kept ha has]
  case exits_new =>
    intro y hy
    rcases List.mem_append.mp hy with hy | hy
    · exact (E.exits_new y hy).imp_right fun hlt => ⟨hlt.1, Nat.lt_of_lt_of_le hlt.2 F.size_le⟩
    · exact (F.exits_new y hy).imp_right fun hlt => ⟨Nat.le_trans E.size_le hlt.1, hlt.2⟩
  case spells =>
    intro ms
    rw [Language.mem_add, E.spells, F.spells]
    refine ⟨?_, ?_⟩
    · rintro (⟨y, hy, hr⟩ | ⟨y, hy, hr⟩)
      · exact ⟨y, List.mem_append_left ys hy, (hold hy).mpr hr⟩
      · exact ⟨y, List.mem_append_right xs hy, hr⟩
    · rintro ⟨y, hy, hr⟩
      rcases List.mem_append.mp hy with hy | hy
      · exact .inl ⟨y, hy, (hold hy).mp hr⟩
      · exact .inr ⟨y, hy, hr⟩

end Extends

/-! ## Single edges -/

/-- An edge to a state that has just been added spells its mark.  A loop in the
state that it leaves may have been added before. -/
theorem extends_of_edge {g h : Graph} (hh : h.Ascending) (hsize : h.size = g.size + 1)
    (hstart : h.start = g.start) {s : Nat} (hs : s < g.size) {i : String}
    (hsame : ∀ {a b}, a < b ∨ a ≠ s → h.mark? a b = g.mark? a b) (hg : g.Ascending)
    (hword : (h.word? g.size).getD "" = i) (o : String) :
    Extends g (h.addEdge s g.size i o) s [g.size] {(⟨i, o⟩ : Mark).spelled} := by
  have hlt : g.size < h.size := by rw [hsize]; exact Nat.lt_succ_self _
  have hmark : ∀ {a b}, a < b → (h.addEdge s g.size i o).mark? a b
      = if a = s ∧ b = g.size then some ⟨i, o⟩ else g.mark? a b := fun hab => by
    rw [hh.valid.mark?_addEdge (Nat.lt_trans hs hlt), hsame (.inl hab)]
  constructor
  case before => exact hg
  case ascending => exact hh.addEdge hlt (.inl ⟨hs, hword⟩)
  case size_le =>
    rw [size_addEdge]
    exact Nat.le_of_lt hlt
  case start_eq => rw [start_addEdge, hstart]
  case old =>
    intro a b hab hb
    rw [hmark hab, if_neg fun h => Nat.ne_of_lt hb h.2]
  case kept =>
    intro a b _ has
    rw [hh.valid.mark?_addEdge (Nat.lt_trans hs hlt), if_neg fun h => has h.1, hsame (.inr has)]
  case exits_new =>
    intro x hx
    obtain rfl := List.mem_singleton.mp hx
    refine .inr ⟨Nat.le_refl _, ?_⟩
    rw [size_addEdge]
    exact hlt
  case spells =>
    intro ms
    refine ⟨?_, ?_⟩
    · rintro rfl
      have hm : (h.addEdge s g.size i o).mark? s g.size = some ⟨i, o⟩ := by
        rw [hmark hs, if_pos ⟨rfl, rfl⟩]
      exact ⟨g.size, List.mem_singleton_self _, .single hm hs⟩
    · rintro ⟨x, hx, hr⟩
      obtain rfl := List.mem_singleton.mp hx
      -- the new edge is the only one into the new state, so it is the whole route
      rcases hr.eq_or_last with ⟨heq, -⟩ | ⟨b, m, ns, hr', hm, hlt', rfl⟩
      · exact absurd heq (Nat.ne_of_lt hs)
      · rw [hmark hlt'] at hm
        split at hm
        next hb =>
          obtain rfl := Option.some.inj hm
          obtain ⟨rfl, -⟩ := hb
          rw [hr'.nil_of_self, List.nil_append]
          rfl
        next => exact absurd (hg.lt_size hm) (Nat.lt_irrefl _)

/-! ## What the builder adds -/

/-- The marks of labels that are said one after the other. -/
def saidMarks (labels : List String) : List Mark :=
  labels.flatMap fun label => Mark.spelled ⟨"", Label.pack label⟩

/-- The mark of a word; while it is hidden, it is heard only. -/
def wordMarks (hidden : Bool) (text : String) : List Mark :=
  Mark.spelled ⟨text, if hidden then "" else Label.pack text⟩

theorem saidMarks_append (l m : List String) : saidMarks (l ++ m) = saidMarks l ++ saidMarks m :=
  List.flatMap_append

theorem singleton_mul_singleton (a b : List Mark) : ({a} * {b} : Language Mark) = {a ++ b} :=
  Set.image2_singleton

theorem extends_emit {g : Graph} (hg : g.Ascending) {s : Nat} (hs : s < g.size)
    (label : String) :
    Extends g (g.emit s label).1 s [(g.emit s label).2] {saidMarks [label]} := by
  have hspelled : saidMarks [label] = Mark.spelled ⟨"", Label.pack label⟩ := List.append_nil _
  rw [hspelled]
  exact extends_of_edge (hg.addState _) (size_addState g _) rfl hs
    (fun _ => mark?_addState g _ _ _) hg (by rw [word?_addState_self]; rfl) _

theorem extends_emitAll {g : Graph} {s : Nat} :
    ∀ (labels : List String), g.Ascending → s < g.size →
      Extends g (g.emitAll s labels).1 s [(g.emitAll s labels).2] {saidMarks labels} := by
  intro labels
  induction labels generalizing g s with
  | nil => exact fun hg _ => .refl hg s
  | cons label rest ih =>
      intro hg hs
      have E := extends_emit hg hs label
      have F := ih E.ascending (E.exit_lt hs (List.mem_singleton_self _))
      have hmul : ({saidMarks [label]} * {saidMarks rest} : Language Mark)
          = {saidMarks (label :: rest)} := by
        rw [singleton_mul_singleton, ← saidMarks_append, List.singleton_append]
      exact hmul ▸ E.trans F hs

/-- A word's edge; the loop of a wildcard is no route. -/
theorem extends_addWord {g : Graph} (hg : g.Ascending) {s : Nat} (hs : s < g.size)
    (hidden : Bool) (text : String) :
    Extends g (g.addWord s text (if hidden then "" else Label.pack text)).1 s
      [(g.addWord s text (if hidden then "" else Label.pack text)).2]
      {wordMarks hidden text} := by
  have hh := hg.addState (some text)
  have hs' : s < (g.addState (some text)).size := by
    rw [size_addState]
    exact Nat.lt_succ_of_lt hs
  by_cases hwild : (text == wildcard) = true
  · simp only [addWord, if_pos hwild]
    refine extends_of_edge (hh.addEdge hs' (.inr ⟨rfl, rfl⟩)) ?_ ?_ hs ?_ hg ?_ _
    · rw [size_addEdge, size_addState]
    · rw [start_addEdge, start_addState]
    · intro a b hab
      rw [hh.valid.mark?_addEdge hs', mark?_addState, if_neg]
      rintro ⟨rfl, rfl⟩
      exact hab.elim (Nat.lt_irrefl _) (· rfl)
    · rw [word?_addEdge, word?_addState_self]
      rfl
  · simp only [addWord, if_neg hwild]
    exact extends_of_edge hh (size_addState g _) rfl hs (fun _ => mark?_addState g _ _ _) hg
      (by rw [word?_addState_self]; rfl) _

/-- The edges that lead from several states to one that records no word. -/
theorem foldl_addEdge_silent {j : Nat} : ∀ (xs : List Nat) {h : Graph}, h.Ascending →
    j < h.size → (h.word? j).getD "" = "" → (∀ x ∈ xs, x < j) →
    let k := xs.foldl (fun h x => h.addEdge x j "" "") h
    k.Ascending ∧ k.size = h.size ∧ k.start = h.start ∧
      ∀ a b, k.mark? a b = if a ∈ xs ∧ b = j then some Mark.silent else h.mark? a b
  | [], h, hh, _, _, _ => ⟨hh, rfl, rfl, fun a b => by simp⟩
  | x :: xs, h, hh, hj, hword, hxs => by
      have hx : x < j := hxs x List.mem_cons_self
      have hnext := hh.addEdge (o := "") hj (.inl ⟨hx, hword⟩)
      obtain ⟨hk, hsize, hstart, hmark⟩ :=
        foldl_addEdge_silent xs hnext (by rw [size_addEdge]; exact hj)
          (by rw [word?_addEdge]; exact hword) (fun y hy => hxs y (List.mem_cons_of_mem x hy))
      refine ⟨hk, by rw [List.foldl_cons, hsize, size_addEdge],
        by rw [List.foldl_cons, hstart, start_addEdge], fun a b => ?_⟩
      rw [List.foldl_cons, hmark, hh.valid.mark?_addEdge (Nat.lt_trans hx hj)]
      by_cases hb : b = j
      · by_cases ha : a ∈ xs
        · simp [hb, ha]
        · by_cases hax : a = x <;> simp [hb, ha, hax, Mark.silent]
      · simp [hb]

theorem join_spec {h : Graph} (hh : h.Ascending) {xs : List Nat} (hxs : ∀ x ∈ xs, x < h.size) :
    (h.join xs).1.Ascending ∧ (h.join xs).1.size = h.size + 1 ∧ (h.join xs).1.start = h.start ∧
      ∀ a b, (h.join xs).1.mark? a b
        = if a ∈ xs ∧ b = h.size then some Mark.silent else h.mark? a b := by
  have hfold := foldl_addEdge_silent (j := h.size) xs (hh.addState .none)
    (by rw [size_addState]; exact Nat.lt_succ_self _) (by rw [word?_addState_self]; rfl) hxs
  simp only [size_addState, start_addState, mark?_addState] at hfold
  exact hfold

theorem mark?_join_of_lt {h : Graph} (hh : h.Ascending) {xs : List Nat} (hxs : ∀ x ∈ xs, x < h.size)
    {a b : Nat} (hb : b < h.size) : (h.join xs).1.mark? a b = h.mark? a b := by
  rw [(join_spec hh hxs).2.2.2, if_neg fun h => Nat.ne_of_lt hb h.2]

/-- Into the new state lead silent edges from the states that are joined. -/
theorem mark?_join_eq_some_iff {h : Graph} (hh : h.Ascending) {xs : List Nat}
    (hxs : ∀ x ∈ xs, x < h.size) {a : Nat} {m : Mark} :
    (h.join xs).1.mark? a h.size = some m ↔ a ∈ xs ∧ m = Mark.silent := by
  have hnone : h.mark? a h.size = none := Option.eq_none_iff_forall_ne_some.mpr fun m hm =>
    absurd (hh.lt_size hm) (Nat.lt_irrefl _)
  rw [(join_spec hh hxs).2.2.2, hnone]
  by_cases ha : a ∈ xs
  · rw [if_pos ⟨ha, rfl⟩, Option.some.injEq, eq_comm]
    exact (and_iff_right ha).symm
  · rw [if_neg fun h => ha h.1]
    exact iff_of_false (Option.some_ne_none m).symm fun h => ha h.1

/-- Joining the exits in a new state changes nothing about what is spelled. -/
theorem Extends.join {g h : Graph} {s : Nat} {xs : List Nat} {L : Language Mark}
    (E : Extends g h s xs L) (hs : s < g.size) :
    Extends g (h.join xs).1 s [(h.join xs).2] L := by
  have hxs : ∀ x ∈ xs, x < h.size := fun x hx => E.exit_lt hs hx
  obtain ⟨hk, hsize, hstart, hmark⟩ := join_spec E.ascending hxs
  have hsh : s < h.size := Nat.lt_of_lt_of_le hs E.size_le
  have hlt : h.size < (h.join xs).1.size := hsize ▸ Nat.lt_succ_self _
  have hold : ∀ {a b}, b < h.size → (h.join xs).1.mark? a b = h.mark? a b :=
    mark?_join_of_lt E.ascending hxs
  have hroute : ∀ {x ms}, x < h.size → ((h.join xs).1.Route s ms x ↔ h.Route s ms x) :=
    fun hx => ⟨fun hr => hr.congr fun _ hbc => (hold (Nat.lt_of_le_of_lt hbc hx)).symm,
      fun hr => hr.congr fun _ hbc => hold (Nat.lt_of_le_of_lt hbc hx)⟩
  constructor
  case before => exact E.before
  case ascending => exact hk
  case size_le => exact Nat.le_trans E.size_le (Nat.le_of_lt hlt)
  case start_eq => rw [hstart, E.start_eq]
  case old =>
    intro a b hab hb
    rw [hold (Nat.lt_of_lt_of_le hb E.size_le), E.old hab hb]
  case kept =>
    intro a b ha has
    rw [hmark, if_neg, E.kept ha has]
    rintro ⟨hmem, -⟩
    rcases E.exits_new a hmem with rfl | ⟨hle, -⟩
    · exact has rfl
    · exact Nat.not_lt_of_le hle ha
  case exits_new =>
    intro x hx
    obtain rfl := List.mem_singleton.mp hx
    exact .inr ⟨E.size_le, hlt⟩
  case spells =>
    intro ms
    rw [E.spells]
    refine ⟨?_, ?_⟩
    · rintro ⟨x, hx, hr⟩
      have hxh := E.exit_lt hs hx
      have hm := (mark?_join_eq_some_iff E.ascending hxs).mpr ⟨hx, rfl⟩
      have hr' := ((hroute hxh).mpr hr).trans (.single hm hxh)
      rw [Mark.spelled_silent, List.append_nil] at hr'
      exact ⟨h.size, List.mem_singleton_self _, hr'⟩
    · rintro ⟨y, hy, hr⟩
      obtain rfl := List.mem_singleton.mp hy
      -- the last edge comes silently from an exit
      rcases hr.eq_or_last with ⟨heq, -⟩ | ⟨x, m, ns, hr', hm, hlt, rfl⟩
      · exact absurd heq (Nat.ne_of_lt hsh)
      · obtain ⟨hx, rfl⟩ := (mark?_join_eq_some_iff E.ascending hxs).mp hm
        rw [Mark.spelled_silent, List.append_nil]
        exact ⟨x, hx, (hroute hlt).mp hr'⟩

end Graph

end Utterance
