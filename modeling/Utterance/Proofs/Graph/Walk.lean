import Utterance.Proofs.Graph.Extension

/-!
# Walks and the loops on them

A *walk* leads along any edges of a graph, also along the loops by which a
wildcard hears more than one word.  A loop is at the state where the wildcard's
edge begins, and whatever else begins there can be entered after it, too.  So
what is spelled by the walks from a state is put together from two parts: the
loops at the state, and the *legs*, the walks that leave the state at once
(`Walk.exists_leg`).

`Spreads g h s xs opens L` says of an extension whether it adds a loop at the
state `s` from which it is built, and that the legs from there to the exits spell
exactly `L`.  Both compose.  After an extension with one exit the loop of the next
one is passed on the way (`Spreads.trans`); side by side the legs are put
together and the loops are shared (`Spreads.union`).
-/

namespace Utterance

namespace Graph

/-! ## Walks -/

/-- There is a way along edges and loops from one state to another that spells
the given marks. -/
inductive Walk (g : Graph) : Nat → List Mark → Nat → Prop where
  | refl (a : Nat) : Walk g a [] a
  | step {a b c : Nat} {m : Mark} {ms : List Mark} :
      g.mark? a b = some m → Walk g b ms c → Walk g a (m.spelled ++ ms) c

/-- A walk that does not begin with a loop. -/
inductive Leg (g : Graph) (a : Nat) : List Mark → Nat → Prop where
  | refl : Leg g a [] a
  | step {b c : Nat} {m : Mark} {ms : List Mark} :
      g.mark? a b = some m → a < b → Walk g b ms c → Leg g a (m.spelled ++ ms) c

/-- There is a loop at the state. -/
def hasLoop (g : Graph) (a : Nat) : Bool := (g.mark? a a).isSome

/-- What is spelled by going round a loop any number of times, if there is one. -/
def loops (b : Bool) : Language Mark := {ms | (ms = [] ∨ b = true) ∧ ∀ m ∈ ms, m = Mark.loop}

theorem nil_mem_loops (b : Bool) : [] ∈ loops b := ⟨.inl rfl, fun _ h => (List.not_mem_nil h).elim⟩

theorem loops_false : loops false = 1 := by
  ext ms
  rw [Language.mem_one]
  refine ⟨fun h => h.1.resolve_right Bool.false_ne_true, ?_⟩
  rintro rfl
  exact nil_mem_loops false

theorem hasLoop_eq_false {g : Graph} {a : Nat} : g.hasLoop a = false ↔ g.mark? a a = none :=
  Option.isSome_eq_false_iff.trans Option.isNone_iff_eq_none

theorem hasLoop_of_mark? {g : Graph} {a : Nat} {m : Mark} (h : g.mark? a a = some m) :
    g.hasLoop a = true := by
  rw [hasLoop, h]
  rfl

theorem Ascending.le {g : Graph} (hg : g.Ascending) {a b : Nat} {m : Mark}
    (hm : g.mark? a b = some m) : a ≤ b :=
  (hg.lt_or_loop hm).elim Nat.le_of_lt fun h => Nat.le_of_eq h.1

theorem Ascending.mark?_self {g : Graph} (hg : g.Ascending) {a : Nat} (h : g.hasLoop a = true) :
    g.mark? a a = some Mark.loop := by
  obtain ⟨m, hm⟩ := Option.isSome_iff_exists.mp h
  rcases hg.lt_or_loop hm with hlt | ⟨-, rfl⟩
  · exact absurd hlt (Nat.lt_irrefl a)
  · exact hm

namespace Walk

variable {g h : Graph} {a b c : Nat} {ms ns : List Mark} {m : Mark}

theorem le (hg : g.Ascending) (hw : g.Walk a ms b) : a ≤ b := by
  induction hw with
  | refl => exact Nat.le_refl _
  | step hm _ ih => exact Nat.le_trans (hg.le hm) ih

theorem trans (hw : g.Walk a ms b) (hw' : g.Walk b ns c) : g.Walk a (ms ++ ns) c := by
  induction hw with
  | refl => exact hw'
  | step hm _ ih =>
      rw [List.append_assoc]
      exact .step hm (ih hw')

theorem single (hm : g.mark? a b = some m) : g.Walk a m.spelled b := by
  have hw := Walk.step hm (.refl b)
  rwa [List.append_nil] at hw

/-- Only the edges between its ends matter to a walk. -/
theorem congr (hg : g.Ascending) (hw : g.Walk a ms c)
    (hsame : ∀ {p q m}, a ≤ p → p ≤ q → q ≤ c → g.mark? p q = some m → h.mark? p q = some m) :
    h.Walk a ms c := by
  induction hw with
  | refl => exact .refl _
  | step hm hw ih =>
      refine .step (hsame (Nat.le_refl _) (hg.le hm) (hw.le hg) hm) (ih fun hp => ?_)
      exact hsame (Nat.le_trans (hg.le hm) hp)

theorem of_mem_loops (hg : g.Ascending) (hms : ms ∈ loops (g.hasLoop a)) : g.Walk a ms a := by
  obtain ⟨hnil, hloop⟩ := hms
  induction ms with
  | nil => exact .refl a
  | cons m ms ih =>
      have hself := hg.mark?_self (hnil.resolve_left (List.cons_ne_nil m ms))
      obtain rfl := hloop m List.mem_cons_self
      have hw := ih (.inr (hasLoop_of_mark? hself)) fun n hn => hloop n (List.mem_cons_of_mem _ hn)
      exact Walk.step hself hw

/-- A walk goes round the loop at its first state and then leaves it. -/
theorem exists_leg (hg : g.Ascending) (hw : g.Walk a ms c) :
    ∃ ls ∈ loops (g.hasLoop a), ∃ ns, g.Leg a ns c ∧ ls ++ ns = ms := by
  induction hw with
  | refl a => exact ⟨[], nil_mem_loops _, [], .refl, rfl⟩
  | @step a b c m ms hm hw ih =>
      rcases hg.lt_or_loop hm with hlt | ⟨rfl, rfl⟩
      · exact ⟨[], nil_mem_loops _, _, .step hm hlt hw, rfl⟩
      · obtain ⟨ls, hls, ns, hns, rfl⟩ := ih
        refine ⟨Mark.loop :: ls, ⟨.inr (hasLoop_of_mark? hm), ?_⟩, ns, hns, rfl⟩
        exact fun m hmem => (List.mem_cons.mp hmem).elim id (hls.2 m)

/-- A walk either goes nowhere or has a last edge. -/
theorem eq_or_last (hw : g.Walk a ms c) :
    (a = c ∧ ms = [])
      ∨ ∃ b m ns, g.Walk a ns b ∧ g.mark? b c = some m ∧ ms = ns ++ m.spelled := by
  induction hw with
  | refl => exact .inl ⟨rfl, rfl⟩
  | @step a b c m ms hm hw ih =>
      right
      rcases ih with ⟨rfl, rfl⟩ | ⟨d, m', ns, hw', hm', rfl⟩
      · exact ⟨a, m, [], .refl a, hm, by rw [List.append_nil, List.nil_append]⟩
      · exact ⟨d, m', m.spelled ++ ns, .step hm hw', hm', by rw [List.append_assoc]⟩

end Walk

namespace Leg

variable {g h : Graph} {a b c : Nat} {ms ns : List Mark} {m : Mark}

theorem walk (hl : g.Leg a ms b) : g.Walk a ms b := by
  cases hl with
  | refl => exact .refl a
  | step hm _ hw => exact .step hm hw

theorem nil_of_self (hg : g.Ascending) (hl : g.Leg a ms a) : ms = [] := by
  cases hl with
  | refl => rfl
  | step _ hlt hw => exact absurd (hw.le hg) (Nat.not_le_of_lt hlt)

/-- A leg that leads to another state can be followed by any walk. -/
theorem trans (hl : g.Leg a ms b) (hne : b ≠ a) (hw : g.Walk b ns c) : g.Leg a (ms ++ ns) c := by
  cases hl with
  | refl => exact absurd rfl hne
  | step hm hlt hw' =>
      rw [List.append_assoc]
      exact .step hm hlt (hw'.trans hw)

theorem concat (hl : g.Leg a ms b) (hm : g.mark? b c = some m) (hlt : b < c) :
    g.Leg a (ms ++ m.spelled) c := by
  cases hl with
  | refl =>
      have hl' := Leg.step hm hlt (.refl c)
      rwa [List.append_nil] at hl'
  | step hm' hlt' hw =>
      rw [List.append_assoc]
      exact .step hm' hlt' (hw.trans (.single hm))

theorem eq_or_last (hl : g.Leg a ms c) :
    (a = c ∧ ms = [])
      ∨ ∃ b m ns, g.Leg a ns b ∧ g.mark? b c = some m ∧ ms = ns ++ m.spelled := by
  cases hl with
  | refl => exact .inl ⟨rfl, rfl⟩
  | @step b _ m ms hm hlt hw =>
      right
      rcases hw.eq_or_last with ⟨rfl, rfl⟩ | ⟨d, m', ns, hw', hm', rfl⟩
      · exact ⟨a, m, [], .refl, hm, by rw [List.append_nil, List.nil_append]⟩
      · exact ⟨d, m', m.spelled ++ ns, .step hm hlt hw', hm', by rw [List.append_assoc]⟩

/-- Only the edges between its ends matter to a leg, and the loop at its first
state does not. -/
theorem congr (hg : g.Ascending) (hl : g.Leg a ms c)
    (hsame : ∀ {p q m}, a ≤ p → p ≤ q → a < q → q ≤ c → g.mark? p q = some m →
      h.mark? p q = some m) : h.Leg a ms c := by
  cases hl with
  | refl => exact .refl
  | step hm hlt hw =>
      refine .step (hsame (Nat.le_refl a) (Nat.le_of_lt hlt) hlt (hw.le hg) hm) hlt ?_
      refine hw.congr hg fun hp hpq hq => ?_
      have hap := Nat.lt_of_lt_of_le hlt hp
      exact hsame (Nat.le_of_lt hap) hpq (Nat.lt_of_lt_of_le hap hpq) hq

end Leg

/-! ## Extensions and the walks through them -/

namespace Extends

variable {g h : Graph} {s : Nat} {xs : List Nat} {L : Language Mark}

/-- Between old states nothing changes but the loop at `s`. -/
theorem mark?_eq (E : Extends g h s xs L) {a b : Nat} (hab : a ≤ b) (hb : b < g.size)
    (hne : a ≠ s ∨ b ≠ s) : h.mark? a b = g.mark? a b := by
  rcases Nat.lt_or_eq_of_le hab with hlt | rfl
  · exact E.old hlt hb
  · exact E.kept hb (hne.elim id id)

theorem hasLoop_of_ne (E : Extends g h s xs L) {a : Nat} (ha : a < g.size) (has : a ≠ s) :
    h.hasLoop a = g.hasLoop a := by
  rw [hasLoop, E.kept ha has, hasLoop]

/-- The legs from `s` to an old state are as before. -/
theorem leg_iff (E : Extends g h s xs L) {x : Nat} {ms : List Mark} (hx : x < g.size) :
    h.Leg s ms x ↔ g.Leg s ms x := by
  have hsame : ∀ {p q}, p ≤ q → s < q → q ≤ x → h.mark? p q = g.mark? p q := fun hpq hsq hqx =>
    E.mark?_eq hpq (Nat.lt_of_le_of_lt hqx hx) (.inr (Nat.ne_of_gt hsq))
  refine ⟨fun hl => hl.congr E.ascending ?_, fun hl => hl.congr E.before ?_⟩
  · intro p q m _ hpq hsq hqx hm
    rwa [← hsame hpq hsq hqx]
  · intro p q m _ hpq hsq hqx hm
    rwa [hsame hpq hsq hqx]

/-- A walk into the new part comes through `s`, and up to there it is an old one. -/
theorem walk_through (E : Extends g h s xs L) {a b : Nat} {ms : List Mark}
    (hw : h.Walk a ms b) (ha : a < g.size) (hb : g.size ≤ b) :
    ∃ l m, g.Walk a l s ∧ h.Walk s m b ∧ l ++ m = ms := by
  induction hw with
  | refl => exact absurd ha (Nat.not_lt_of_le hb)
  | @step a c b m ms hm hw ih =>
      by_cases has : a = s
      · subst has
        exact ⟨[], m.spelled ++ ms, .refl a, .step hm hw, rfl⟩
      · rw [E.kept ha has] at hm
        obtain ⟨l, n, hl, hn, rfl⟩ := ih (E.before.lt_size hm) hb
        exact ⟨m.spelled ++ l, n, .step hm hl, hn, List.append_assoc _ _ _⟩

theorem leg_through (E : Extends g h s xs L) {a b : Nat} {ms : List Mark} (hl : h.Leg a ms b)
    (ha : a < g.size) (has : a ≠ s) (hb : g.size ≤ b) :
    ∃ l m, g.Leg a l s ∧ h.Walk s m b ∧ l ++ m = ms := by
  cases hl with
  | refl => exact absurd ha (Nat.not_lt_of_le hb)
  | @step c _ m ms hm hlt hw =>
      rw [E.kept ha has] at hm
      obtain ⟨l, n, hl, hn, rfl⟩ := E.walk_through hw (E.before.lt_size hm) hb
      exact ⟨m.spelled ++ l, n, .step hm hlt hl, hn, List.append_assoc _ _ _⟩

end Extends

/-! ## What an extension adds to the walks -/

/-- An extension that adds a loop at `s` if `opens` says so, and whose legs to the
exits spell the language `L`.  The exits have no loops yet. -/
structure Spreads (g h : Graph) (s : Nat) (xs : List Nat) (opens : Bool) (L : Language Mark) :
    Prop where
  frame : ∃ M, Extends g h s xs M
  hasLoop_eq : h.hasLoop s = (g.hasLoop s || opens)
  ends : ∀ x ∈ xs, x ≠ s → h.hasLoop x = false
  legs : ∀ ms, ms ∈ L ↔ ∃ x ∈ xs, h.Leg s ms x

namespace Spreads

variable {g h k : Graph} {s x : Nat} {xs ys : List Nat} {o o' : Bool} {L M : Language Mark}

theorem ascending (S : Spreads g h s xs o L) : h.Ascending := S.frame.elim fun _ E => E.ascending

theorem exit_lt (S : Spreads g h s xs o L) (hs : s < g.size) (hx : x ∈ xs) : x < h.size :=
  S.frame.elim fun _ E => E.exit_lt hs hx

/-- Nothing is built, and the only leg goes nowhere. -/
theorem refl (hg : g.Ascending) (s : Nat) : Spreads g g s [s] false 1 where
  frame := ⟨1, .refl hg s⟩
  hasLoop_eq := (Bool.or_false _).symm
  ends _ hx hne := absurd (List.mem_singleton.mp hx) hne
  legs ms := by
    rw [Language.mem_one]
    refine ⟨?_, ?_⟩
    · rintro rfl
      exact ⟨s, List.mem_singleton_self s, .refl⟩
    · rintro ⟨x, hx, hl⟩
      obtain rfl := List.mem_singleton.mp hx
      exact hl.nil_of_self hg

theorem none (hg : g.Ascending) (s : Nat) : Spreads g g s [] false 0 where
  frame := ⟨0, .none hg s⟩
  hasLoop_eq := (Bool.or_false _).symm
  ends _ hx _ := (List.not_mem_nil hx).elim
  legs ms := by
    refine ⟨fun h => (Language.notMem_zero ms h).elim, ?_⟩
    rintro ⟨x, hx, -⟩
    exact (List.not_mem_nil hx).elim

/-- The walks to the exits, if there was no loop before. -/
theorem walks (S : Spreads g h s [x] o L) (hloop : g.hasLoop s = false) {ms : List Mark} :
    h.Walk s ms x ↔ ms ∈ loops o * L := by
  have hopens : h.hasLoop s = o := by rw [S.hasLoop_eq, hloop, Bool.false_or]
  rw [Language.mem_mul]
  constructor
  · intro hw
    obtain ⟨ls, hls, ns, hns, happend⟩ := hw.exists_leg S.ascending
    exact ⟨ls, hopens ▸ hls, ns, (S.legs ns).mpr ⟨x, List.mem_singleton_self x, hns⟩, happend⟩
  · rintro ⟨ls, hls, ns, hns, rfl⟩
    obtain ⟨y, hy, hl⟩ := (S.legs ns).mp hns
    obtain rfl := List.mem_singleton.mp hy
    exact (Walk.of_mem_loops S.ascending (hopens ▸ hls)).trans hl.walk

/-- The legs of one extension are followed by the loops and the legs of the next
one, which is built from its exit. -/
theorem trans (S : Spreads g h s [x] o L) (T : Spreads h k x ys o' M) (hs : s < g.size)
    (hxs : x ≠ s) (hys : ∀ y ∈ ys, y ≠ x) : Spreads g k s ys o (L * (loops o' * M)) := by
  obtain ⟨_, E⟩ := S.frame
  obtain ⟨_, F⟩ := T.frame
  have hxmem : x ∈ [x] := List.mem_singleton_self x
  have hx : x < h.size := E.exit_lt hs hxmem
  have hsh : s < h.size := Nat.lt_of_lt_of_le hs E.size_le
  have hend : h.hasLoop x = false := S.ends x hxmem hxs
  have hopens : k.hasLoop x = o' := by rw [T.hasLoop_eq, hend, Bool.false_or]
  constructor
  case frame => exact ⟨_, E.trans F hs⟩
  case hasLoop_eq => rw [F.hasLoop_of_ne hsh (Ne.symm hxs), S.hasLoop_eq]
  case ends => exact fun y hy _ => T.ends y hy (hys y hy)
  case legs =>
    intro ms
    rw [Language.mem_mul]
    constructor
    · rintro ⟨l, hl, _, htail, rfl⟩
      obtain ⟨ls, hls, m, hm, rfl⟩ := Language.mem_mul.mp htail
      obtain ⟨x', hx', hleg⟩ := (S.legs l).mp hl
      obtain rfl := List.mem_singleton.mp hx'
      obtain ⟨y, hy, hleg'⟩ := (T.legs m).mp hm
      -- the first leg has no loop at its end, so it is still there
      have hleg₁ : k.Leg s l x' := hleg.congr E.ascending fun {p q m} _ hpq _ hqx hm => by
        rw [F.mark?_eq hpq (E.ascending.lt_size hm) ?_, hm]
        by_contra hloop
        obtain ⟨rfl, rfl⟩ : p = x' ∧ q = x' := by
          simpa only [not_or, ne_eq, not_not] using hloop
        rw [hasLoop_of_mark? hm] at hend
        cases hend
      exact ⟨y, hy, hleg₁.trans hxs
        ((Walk.of_mem_loops F.ascending (hopens ▸ hls)).trans hleg'.walk)⟩
    · rintro ⟨y, hy, hleg⟩
      have hyk : h.size ≤ y := ((F.exits_new y hy).resolve_left (hys y hy)).1
      obtain ⟨l, _, hl, hw, rfl⟩ := F.leg_through hleg hsh (Ne.symm hxs) hyk
      obtain ⟨ls, hls, m, hm, rfl⟩ := hw.exists_leg F.ascending
      exact ⟨l, (S.legs l).mpr ⟨x, hxmem, hl⟩, ls ++ m,
        Language.mem_mul.mpr ⟨ls, hopens ▸ hls, m, (T.legs m).mpr ⟨y, hy, hm⟩, rfl⟩, rfl⟩

/-- Two extensions from one state share the loop there. -/
theorem union (S : Spreads g h s xs o L) (T : Spreads h k s ys o' M) (hs : s < g.size) :
    Spreads g k s (xs ++ ys) (o || o') (L + M) := by
  obtain ⟨_, E⟩ := S.frame
  obtain ⟨_, F⟩ := T.frame
  have hold : ∀ {y ms}, y ∈ xs → (k.Leg s ms y ↔ h.Leg s ms y) :=
    fun hy => F.leg_iff (E.exit_lt hs hy)
  constructor
  case frame => exact ⟨_, E.union F hs⟩
  case hasLoop_eq => rw [T.hasLoop_eq, S.hasLoop_eq, Bool.or_assoc]
  case ends =>
    intro y hy hne
    rcases List.mem_append.mp hy with hy | hy
    · rw [F.hasLoop_of_ne (E.exit_lt hs hy) hne, S.ends y hy hne]
    · exact T.ends y hy hne
  case legs =>
    intro ms
    rw [Language.mem_add, S.legs, T.legs]
    constructor
    · rintro (⟨y, hy, hl⟩ | ⟨y, hy, hl⟩)
      · exact ⟨y, List.mem_append_left ys hy, (hold hy).mpr hl⟩
      · exact ⟨y, List.mem_append_right xs hy, hl⟩
    · rintro ⟨y, hy, hl⟩
      rcases List.mem_append.mp hy with hy | hy
      · exact .inl ⟨y, hy, (hold hy).mp hl⟩
      · exact .inr ⟨y, hy, hl⟩

/-- Joining the exits in a new state changes nothing about the legs. -/
theorem join (S : Spreads g h s xs o L) (hs : s < g.size) :
    Spreads g (h.join xs).1 s [(h.join xs).2] o L := by
  obtain ⟨_, E⟩ := S.frame
  have hxs : ∀ x ∈ xs, x < h.size := fun x hx => E.exit_lt hs hx
  have hk := (E.join hs).ascending
  have hsh : s < h.size := Nat.lt_of_lt_of_le hs E.size_le
  have hold : ∀ {a b}, b < h.size → (h.join xs).1.mark? a b = h.mark? a b :=
    mark?_join_of_lt E.ascending hxs
  have hleg : ∀ {x ms}, x < h.size → ((h.join xs).1.Leg s ms x ↔ h.Leg s ms x) := fun hx => by
    refine ⟨fun hl => hl.congr hk ?_, fun hl => hl.congr E.ascending ?_⟩
    · intro p q m _ _ _ hqx hm
      rwa [← hold (Nat.lt_of_le_of_lt hqx hx)]
    · intro p q m _ _ _ hqx hm
      rwa [hold (Nat.lt_of_le_of_lt hqx hx)]
  constructor
  case frame => exact ⟨_, E.join hs⟩
  case hasLoop_eq => rw [hasLoop, hold hsh, ← hasLoop, S.hasLoop_eq]
  case ends =>
    intro x hx _
    obtain rfl := List.mem_singleton.mp hx
    refine hasLoop_eq_false.mpr (Option.eq_none_iff_forall_ne_some.mpr fun m hm => ?_)
    exact Nat.lt_irrefl _ (hxs _ ((mark?_join_eq_some_iff E.ascending hxs).mp hm).1)
  case legs =>
    intro ms
    rw [S.legs]
    constructor
    · rintro ⟨x, hx, hl⟩
      have hxh := hxs x hx
      have hm := (mark?_join_eq_some_iff E.ascending hxs).mpr ⟨hx, rfl⟩
      have hl' := ((hleg hxh).mpr hl).concat hm hxh
      rw [Mark.spelled_silent, List.append_nil] at hl'
      exact ⟨h.size, List.mem_singleton_self _, hl'⟩
    · rintro ⟨y, hy, hl⟩
      obtain rfl := List.mem_singleton.mp hy
      rcases hl.eq_or_last with ⟨heq, -⟩ | ⟨x, m, ns, hl', hm, rfl⟩
      · exact absurd heq (Nat.ne_of_lt hsh)
      · obtain ⟨hx, rfl⟩ := (mark?_join_eq_some_iff E.ascending hxs).mp hm
        rw [Mark.spelled_silent, List.append_nil]
        exact ⟨x, hx, (hleg (hxs x hx)).mp hl'⟩

/-- The edge to a new state is the only leg there. -/
theorem of_edge {m : Mark} (E : Extends g h s [g.size] M) (hs : s < g.size)
    (hm : h.mark? s g.size = some m) (hend : h.hasLoop g.size = false)
    (hloop : h.hasLoop s = (g.hasLoop s || o)) : Spreads g h s [g.size] o {m.spelled} where
  frame := ⟨M, E⟩
  hasLoop_eq := hloop
  ends y hy _ := List.mem_singleton.mp hy ▸ hend
  legs ms := by
    constructor
    · rintro rfl
      have hl := Leg.step hm hs (.refl g.size)
      rw [List.append_nil] at hl
      exact ⟨g.size, List.mem_singleton_self _, hl⟩
    · rintro ⟨y, hy, hl⟩
      obtain rfl := List.mem_singleton.mp hy
      rcases hl.eq_or_last with ⟨heq, -⟩ | ⟨a, m', ns, hl', hm', rfl⟩
      · exact absurd heq (Nat.ne_of_lt hs)
      · rcases E.entered hm' (Nat.le_refl _) with rfl | hle
        · rw [hm] at hm'
          cases hm'
          rw [hl'.nil_of_self E.ascending, List.nil_append]
          rfl
        · obtain rfl : a = g.size := Nat.le_antisymm (E.ascending.le hm') hle
          rw [hasLoop_of_mark? hm'] at hend
          cases hend

end Spreads

/-! ## What the builder adds -/

theorem hasLoop_addEdge {g : Graph} (hg : g.Valid) {s : Nat} (hs : s < g.size) {t : Nat}
    (hst : s ≠ t) (i o : String) (a : Nat) : (g.addEdge s t i o).hasLoop a = g.hasLoop a := by
  rw [hasLoop, hg.mark?_addEdge hs, if_neg fun h => hst (h.1.symm.trans h.2), hasLoop]

theorem hasLoop_addEdge_self {g : Graph} (hg : g.Valid) {s : Nat} (hs : s < g.size) (i o : String)
    (a : Nat) : (g.addEdge s s i o).hasLoop a = (decide (a = s) || g.hasLoop a) := by
  simp only [hasLoop, hg.mark?_addEdge hs, and_self]
  by_cases ha : a = s <;> simp [ha]

theorem hasLoop_size {g : Graph} (hg : g.Ascending) : g.hasLoop g.size = false :=
  hasLoop_eq_false.mpr (Option.eq_none_iff_forall_ne_some.mpr fun _ hm =>
    Nat.lt_irrefl _ (hg.lt_size hm))

theorem hasLoop_addState (g : Graph) (w : Option String) (a : Nat) :
    (g.addState w).hasLoop a = g.hasLoop a := by
  rw [hasLoop, mark?_addState, hasLoop]

theorem spreads_emit {g : Graph} (hg : g.Ascending) {s : Nat} (hs : s < g.size)
    (label : String) :
    Spreads g (g.emit s label).1 s [(g.emit s label).2] false {saidMarks [label]} := by
  have hh := hg.addState .none
  have hs' : s < g.addState.size := Nat.lt_of_lt_of_le hs (by rw [size_addState]; omega)
  have hloop : ∀ a, (g.emit s label).1.hasLoop a = g.hasLoop a := fun a => by
    rw [emit, hasLoop_addEdge hh.valid hs' (Nat.ne_of_lt hs), hasLoop_addState]
  have hspelled : saidMarks [label] = Mark.spelled ⟨"", Label.pack label⟩ := List.append_nil _
  rw [hspelled]
  refine .of_edge (extends_emit hg hs label) hs ?_ ?_ ?_
  · rw [emit, hh.valid.mark?_addEdge hs', if_pos ⟨rfl, rfl⟩]
  · rw [hloop, hasLoop_size hg]
  · rw [hloop, Bool.or_false]

/-- A wildcard's edge has a loop where it begins. -/
theorem spreads_addWord {g : Graph} (hg : g.Ascending) {s : Nat} (hs : s < g.size)
    (hidden : Bool) (text : String) :
    Spreads g (g.addWord s text (if hidden then "" else Label.pack text)).1 s
      [(g.addWord s text (if hidden then "" else Label.pack text)).2] (text == wildcard)
      {wordMarks hidden text} := by
  have hh := hg.addState (some text)
  have hs' : s < (g.addState (some text)).size := by
    rw [size_addState]
    exact Nat.lt_succ_of_lt hs
  have hne := Nat.ne_of_lt hs
  have E := extends_addWord hg hs hidden text
  by_cases hwild : (text == wildcard) = true
  · have hk := hh.addEdge hs' (.inr ⟨rfl, rfl⟩ : _ ∨ (s = s ∧ (⟨wildcard, wildcard⟩ : Mark) = _))
    have hsk : s < ((g.addState (some text)).addEdge s s wildcard wildcard).size := by
      rw [size_addEdge]
      exact hs'
    have hloop : ∀ a, ((g.addState (some text)).addEdge s s wildcard wildcard).hasLoop a
        = (decide (a = s) || g.hasLoop a) := fun a => by
      rw [hasLoop_addEdge_self hh.valid hs', hasLoop_addState]
    simp only [addWord, hwild, if_true] at E ⊢
    refine .of_edge E hs ?_ ?_ ?_
    · rw [hk.valid.mark?_addEdge hsk, if_pos ⟨rfl, rfl⟩]
    · rw [hasLoop_addEdge hk.valid hsk hne, hloop, hasLoop_size hg, decide_eq_false (Ne.symm hne)]
      rfl
    · rw [hasLoop_addEdge hk.valid hsk hne, hloop, decide_eq_true rfl, Bool.true_or, Bool.or_true]
  · rw [Bool.not_eq_true] at hwild
    simp only [addWord, hwild, Bool.false_eq_true, if_false] at E ⊢
    refine .of_edge E hs ?_ ?_ ?_
    · rw [hh.valid.mark?_addEdge hs', if_pos ⟨rfl, rfl⟩]
    · rw [hasLoop_addEdge hh.valid hs' hne, hasLoop_addState, hasLoop_size hg]
    · rw [hasLoop_addEdge hh.valid hs' hne, hasLoop_addState, Bool.or_false]

end Graph

end Utterance
