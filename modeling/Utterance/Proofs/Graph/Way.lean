import Mathlib.Data.List.Flatten
import Mathlib.Data.List.Nodup
import Utterance.Proofs.Graph.Extension

/-!
# All ways through an extension

`Route` says that marks can be spelled between two states, not in how many ways.  A *way*
is a route with the states that it comes to, and these determine it (`Way.unique`).

`Enumerates g h s xs l` says of an extension of `g` from the state `s` that the ways to its
exits can be listed without repetition, so that they spell the marks in `l`, in this order.
Lists compose as languages do, but they also count.  One after the other, the ways through
two extensions are the pairs of their ways, because a way passes the exit of the first one
once (`Enumerates.trans`).  Side by side, they are the ways through either
(`Enumerates.union`), as long as the first one leads on: else a way that goes nowhere could
be in both.
-/

namespace Utterance

namespace Graph

/-! ## Ways -/

/-- A way along ascending edges from one state to another.  It comes to the given states,
the last of which is its end, and spells the given marks. -/
inductive Way (g : Graph) : Nat → List Nat → List Mark → Nat → Prop where
  | refl (a : Nat) : Way g a [] [] a
  | step {a b c : Nat} {m : Mark} {cs : List Nat} {ms : List Mark} :
      g.mark? a b = some m → a < b → Way g b cs ms c → Way g a (b :: cs) (m.spelled ++ ms) c

namespace Way

variable {g h : Graph} {a b c : Nat} {cs ds : List Nat} {ms ns : List Mark} {m : Mark}

theorem le (hw : g.Way a cs ms b) : a ≤ b := by
  induction hw with
  | refl => exact Nat.le_refl _
  | step _ hlt _ ih => exact Nat.le_trans (Nat.le_of_lt hlt) ih

theorem trans (hw : g.Way a cs ms b) (hw' : g.Way b ds ns c) :
    g.Way a (cs ++ ds) (ms ++ ns) c := by
  induction hw with
  | refl => exact hw'
  | step hm hlt _ ih =>
      rw [List.append_assoc]
      exact .step hm hlt (ih hw')

theorem single (hm : g.mark? a b = some m) (hlt : a < b) : g.Way a [b] m.spelled b := by
  have hw := Way.step hm hlt (.refl b)
  rwa [List.append_nil] at hw

/-- The states that it comes to determine a way. -/
theorem unique (hw : g.Way a cs ms b) (hw' : g.Way a cs ns c) : ms = ns ∧ b = c := by
  induction hw generalizing ns with
  | refl =>
      cases hw'
      exact ⟨rfl, rfl⟩
  | step hm _ _ ih =>
      cases hw' with
      | step hm' _ hw' =>
          obtain ⟨rfl, hend⟩ := ih hw'
          rw [hm] at hm'
          cases hm'
          exact ⟨rfl, hend⟩

theorem nil_of_self (hw : g.Way a cs ms a) : cs = [] ∧ ms = [] := by
  cases hw with
  | refl => exact ⟨rfl, rfl⟩
  | step _ hlt hw => exact absurd hw.le (Nat.not_le_of_lt hlt)

/-- A way comes to each state once, so it does not go on to where it has been. -/
theorem eq_nil_of_append (hw : g.Way a cs ms b) (hw' : g.Way a (cs ++ ds) ns b) : ds = [] := by
  induction hw generalizing ns with
  | refl => exact hw'.nil_of_self.1
  | step _ _ _ ih =>
      cases hw' with
      | step _ _ hw' => exact ih hw'

/-- Where two ways to one state are continued alike, they are the same. -/
theorem append_inj {ds' cs' : List Nat} (hw : g.Way a cs ms b) (hw' : g.Way a cs' ns b)
    (h : cs ++ ds = cs' ++ ds') : cs = cs' := by
  rcases List.append_eq_append_iff.mp h with ⟨es, rfl, -⟩ | ⟨es, rfl, -⟩
  · rw [hw.eq_nil_of_append hw', List.append_nil]
  · rw [hw'.eq_nil_of_append hw, List.append_nil]

/-- A way either goes nowhere or has a last edge. -/
theorem eq_or_last (hw : g.Way a cs ms c) :
    (a = c ∧ cs = [] ∧ ms = [])
      ∨ ∃ b m ds ns, g.Way a ds ns b ∧ g.mark? b c = some m ∧ b < c ∧
        cs = ds ++ [c] ∧ ms = ns ++ m.spelled := by
  induction hw with
  | refl => exact .inl ⟨rfl, rfl, rfl⟩
  | @step a b c m cs ms hm hlt hw ih =>
      right
      rcases ih with ⟨rfl, rfl, rfl⟩ | ⟨d, m', ds, ns, hw', hm', hlt', rfl, rfl⟩
      · exact ⟨a, m, [], [], .refl a, hm, hlt, rfl, by rw [List.append_nil, List.nil_append]⟩
      · exact ⟨d, m', b :: ds, m.spelled ++ ns, .step hm hlt hw', hm', hlt', rfl,
          by rw [List.append_assoc]⟩

/-- Only the edges up to its end matter to a way. -/
theorem congr (hw : g.Way a cs ms c)
    (hsame : ∀ {a b}, a < b → b ≤ c → h.mark? a b = g.mark? a b) : h.Way a cs ms c := by
  induction hw with
  | refl => exact .refl _
  | step hm hlt hw ih =>
      refine .step ?_ hlt (ih hsame)
      rw [hsame hlt hw.le, hm]

end Way

namespace Extends

variable {g h : Graph} {s : Nat} {xs : List Nat} {L : Language Mark}

/-- Ways to an old state are as before. -/
theorem way_iff (E : Extends g h s xs L) {a b : Nat} {cs : List Nat} {ms : List Mark}
    (hb : b < g.size) : h.Way a cs ms b ↔ g.Way a cs ms b :=
  ⟨fun hw => hw.congr fun hab hbc => (E.old hab (Nat.lt_of_le_of_lt hbc hb)).symm,
   fun hw => hw.congr fun hab hbc => E.old hab (Nat.lt_of_le_of_lt hbc hb)⟩

/-- A way from an old state to a new one comes through the state from which the extension
was built. -/
theorem way_through (E : Extends g h s xs L) {a b : Nat} {cs : List Nat} {ms : List Mark}
    (hw : h.Way a cs ms b) (ha : a < g.size) (hb : g.size ≤ b) :
    ∃ cs₁ ms₁ cs₂ ms₂, h.Way a cs₁ ms₁ s ∧ h.Way s cs₂ ms₂ b ∧
      cs = cs₁ ++ cs₂ ∧ ms = ms₁ ++ ms₂ := by
  induction hw with
  | refl => exact absurd ha (Nat.not_lt_of_le hb)
  | @step a c b m cs ms hm hlt hw ih =>
      by_cases hc : c < g.size
      · obtain ⟨cs₁, ms₁, cs₂, ms₂, h₁, h₂, rfl, rfl⟩ := ih hc hb
        exact ⟨c :: cs₁, m.spelled ++ ms₁, cs₂, ms₂, .step hm hlt h₁, h₂, rfl,
          by rw [List.append_assoc]⟩
      · rcases E.entered hm (Nat.le_of_not_lt hc) with rfl | hle
        · exact ⟨[], [], c :: cs, m.spelled ++ ms, .refl _, .step hm hlt hw, rfl, rfl⟩
        · exact absurd ha (Nat.not_lt_of_le hle)

end Extends

/-! ## Enumerations -/

/-- These are the ways from a state to one of the exits, each once. -/
structure ListsWays (h : Graph) (s : Nat) (xs : List Nat)
    (ways : List (List Nat × List Mark)) : Prop where
  nodup : ways.Nodup
  mem_iff : ∀ w, w ∈ ways ↔ ∃ x ∈ xs, h.Way s w.1 w.2 x

/-- All ways of one list, each followed by all of another one. -/
def continued (ways more : List (List Nat × List Mark)) : List (List Nat × List Mark) :=
  ways.flatMap fun v => more.map fun w => (v.1 ++ w.1, v.2 ++ w.2)

namespace ListsWays

variable {h : Graph} {s x : Nat} {ways more : List (List Nat × List Mark)}

theorem way (hways : ListsWays h s [x] ways) {w : List Nat × List Mark} (hw : w ∈ ways) :
    h.Way s w.1 w.2 x := by
  obtain ⟨x', hx', hway⟩ := (hways.mem_iff w).mp hw
  obtain rfl := List.mem_singleton.mp hx'
  exact hway

/-- Ways that are continued stay different, as they pass their end once. -/
theorem nodup_continued (hways : ListsWays h s [x] ways) (hmore : more.Nodup) :
    (continued ways more).Nodup := by
  rw [continued, List.nodup_flatMap]
  refine ⟨fun v _ => hmore.map fun w w' heq => ?_, ?_⟩
  · obtain ⟨hcs, hms⟩ := Prod.ext_iff.mp heq
    exact Prod.ext (List.append_cancel_left hcs) (List.append_cancel_left hms)
  · refine hways.nodup.imp_of_mem fun {v v'} hv hv' hne => List.disjoint_left.mpr ?_
    intro w hw hw'
    obtain ⟨u, -, rfl⟩ := List.mem_map.mp hw
    obtain ⟨u', -, heq⟩ := List.mem_map.mp hw'
    have hcs := (hways.way hv).append_inj (hways.way hv') (Prod.ext_iff.mp heq).1.symm
    have hway := hways.way hv'
    rw [← hcs] at hway
    exact hne (Prod.ext hcs ((hways.way hv).unique hway).1)

/-- Joining the exits in a new state prolongs every way by one silent edge. -/
theorem join {xs : List Nat} (hways : ListsWays h s xs ways) (hh : h.Ascending)
    (hxs : ∀ x ∈ xs, x < h.size) (hs : s < h.size) :
    ListsWays (h.join xs).1 s [(h.join xs).2] (ways.map fun w => (w.1 ++ [h.size], w.2)) := by
  have hold : ∀ {a b}, b < h.size → (h.join xs).1.mark? a b = h.mark? a b :=
    mark?_join_of_lt hh hxs
  have hway : ∀ {x cs ms}, x < h.size → ((h.join xs).1.Way s cs ms x ↔ h.Way s cs ms x) :=
    fun hx => ⟨fun hw => hw.congr fun _ hbc => (hold (Nat.lt_of_le_of_lt hbc hx)).symm,
      fun hw => hw.congr fun _ hbc => hold (Nat.lt_of_le_of_lt hbc hx)⟩
  refine ⟨hways.nodup.map fun v w heq => ?_, fun w => ?_⟩
  · obtain ⟨hcs, hms⟩ := Prod.ext_iff.mp heq
    exact Prod.ext (List.append_cancel_right hcs) hms
  · rw [List.mem_map]
    constructor
    · rintro ⟨v, hv, rfl⟩
      obtain ⟨x, hx, hv⟩ := (hways.mem_iff v).mp hv
      have hm := (mark?_join_eq_some_iff hh hxs).mpr ⟨hx, rfl⟩
      have hw := ((hway (hxs x hx)).mpr hv).trans (.single hm (hxs x hx))
      rw [Mark.spelled_silent, List.append_nil] at hw
      exact ⟨h.size, List.mem_singleton_self _, hw⟩
    · rintro ⟨y, hy, hw⟩
      obtain rfl := List.mem_singleton.mp hy
      -- the last edge comes silently from an exit
      rcases hw.eq_or_last with ⟨heq, -⟩ | ⟨x, n, ds, ns, hw', hm, hlt, hcs, hms⟩
      · exact absurd heq (Nat.ne_of_lt hs)
      · obtain ⟨hx, rfl⟩ := (mark?_join_eq_some_iff hh hxs).mp hm
        rw [Mark.spelled_silent, List.append_nil] at hms
        exact ⟨(ds, ns), (hways.mem_iff _).mpr ⟨x, hx, (hway hlt).mp hw'⟩,
          Prod.ext hcs.symm hms.symm⟩

/-- Exits to which there is no way may be added. -/
theorem of_subset {xs ys : List Nat} (hways : ListsWays h s xs ways) (hsub : xs ⊆ ys)
    (hnone : ∀ y ∈ ys, y ∉ xs → ∀ {cs ms}, ¬h.Way s cs ms y) : ListsWays h s ys ways where
  nodup := hways.nodup
  mem_iff w := by
    rw [hways.mem_iff]
    constructor
    · rintro ⟨x, hx, hw⟩
      exact ⟨x, hsub hx, hw⟩
    · rintro ⟨y, hy, hw⟩
      by_cases hx : y ∈ xs
      · exact ⟨y, hx, hw⟩
      · exact (hnone y hy hx hw).elim

end ListsWays

/-- An extension through which the ways spell these marks, one way for each entry. -/
structure Enumerates (g h : Graph) (s : Nat) (xs : List Nat) (l : List (List Mark)) : Prop where
  frame : ∃ L, Extends g h s xs L
  listed : ∃ ways, ListsWays h s xs ways ∧ ways.map Prod.snd = l

/-- Everything in one list followed by everything in another one. -/
def inSequence (l m : List (List Mark)) : List (List Mark) := l.flatMap fun a => m.map (a ++ ·)

theorem inSequence_singleton (a : List Mark) (m : List (List Mark)) :
    inSequence [a] m = m.map (a ++ ·) := List.flatMap_singleton ..

theorem inSequence_singleton_right (l : List (List Mark)) (b : List Mark) :
    inSequence l [b] = l.map (· ++ b) := by
  rw [inSequence, List.map_eq_flatMap]
  rfl

namespace Enumerates

variable {g h k : Graph} {s x : Nat} {xs ys : List Nat} {l m : List (List Mark)}

theorem ascending (E : Enumerates g h s xs l) : h.Ascending :=
  E.frame.elim fun _ F => F.ascending

theorem exit_lt (E : Enumerates g h s xs l) (hs : s < g.size) {x : Nat} (hx : x ∈ xs) :
    x < h.size := E.frame.elim fun _ F => F.exit_lt hs hx

theorem size_le (E : Enumerates g h s xs l) : g.size ≤ h.size :=
  E.frame.elim fun _ F => F.size_le

/-- Nothing is built: the only way goes nowhere. -/
theorem refl (hg : g.Ascending) (s : Nat) : Enumerates g g s [s] [[]] where
  frame := ⟨_, .refl hg s⟩
  listed := by
    refine ⟨[([], [])], ⟨List.nodup_singleton _, fun w => ?_⟩, rfl⟩
    rw [List.mem_singleton]
    constructor
    · rintro rfl
      exact ⟨s, List.mem_singleton_self s, .refl s⟩
    · rintro ⟨x, hx, hw⟩
      obtain rfl := List.mem_singleton.mp hx
      obtain ⟨hcs, hms⟩ := hw.nil_of_self
      exact Prod.ext hcs hms

/-- Without exits there are no ways. -/
theorem none (hg : g.Ascending) (s : Nat) : Enumerates g g s [] [] where
  frame := ⟨_, .none hg s⟩
  listed := by
    refine ⟨[], ⟨List.nodup_nil, fun w => iff_of_false List.not_mem_nil ?_⟩, rfl⟩
    rintro ⟨x, hx, -⟩
    exact List.not_mem_nil hx

/-- The edge to a new state is the only way there. -/
theorem of_edge {n : Mark} (E : ∃ L, Extends g h s [g.size] L) (hs : s < g.size)
    (hm : h.mark? s g.size = some n) : Enumerates g h s [g.size] [n.spelled] where
  frame := E
  listed := by
    obtain ⟨_, E⟩ := E
    refine ⟨[([g.size], n.spelled)], ⟨List.nodup_singleton _, fun w => ?_⟩, rfl⟩
    rw [List.mem_singleton]
    constructor
    · rintro rfl
      exact ⟨g.size, List.mem_singleton_self _, .single hm hs⟩
    · rintro ⟨x, hx, hw⟩
      obtain rfl := List.mem_singleton.mp hx
      rcases hw.eq_or_last with ⟨heq, -⟩ | ⟨b, n', ds, ns, hw', hm', hlt, hcs, hms⟩
      · exact absurd heq (Nat.ne_of_lt hs)
      -- the last edge leaves `s`, so it is the only one
      · rcases E.entered hm' (Nat.le_refl _) with rfl | hle
        · rw [hm] at hm'
          cases hm'
          obtain ⟨rfl, rfl⟩ := hw'.nil_of_self
          exact Prod.ext hcs hms
        · exact absurd hlt (Nat.not_lt_of_le hle)

/-- The ways through an extension and on through one that is built from its exit. -/
theorem trans (E : Enumerates g h s [x] l) (F : Enumerates h k x ys m) (hs : s < g.size) :
    Enumerates g k s ys (inSequence l m) := by
  obtain ⟨⟨_, E'⟩, ways, hways, rfl⟩ := E
  obtain ⟨⟨_, F'⟩, more, hmore, rfl⟩ := F
  have hxmem : x ∈ [x] := List.mem_singleton_self x
  have hx : x < h.size := E'.exit_lt hs hxmem
  refine ⟨⟨_, E'.trans F' hs⟩, continued ways more,
    ⟨hways.nodup_continued hmore.nodup, fun w => ?_⟩, ?_⟩
  · rw [continued, List.mem_flatMap]
    constructor
    · rintro ⟨v, hv, hw⟩
      obtain ⟨u, hu, rfl⟩ := List.mem_map.mp hw
      obtain ⟨y, hy, hway⟩ := (hmore.mem_iff u).mp hu
      exact ⟨y, hy, ((F'.way_iff hx).mpr (hways.way hv)).trans hway⟩
    · rintro ⟨y, hy, hway⟩
      -- a way that ends where the second extension starts uses none of it
      rcases F'.exits_new y hy with rfl | ⟨hle, -⟩
      · refine ⟨w, (hways.mem_iff w).mpr ⟨y, hxmem, (F'.way_iff hx).mp hway⟩, ?_⟩
        refine List.mem_map.mpr ⟨([], []), (hmore.mem_iff _).mpr ⟨y, hy, .refl y⟩, ?_⟩
        rw [List.append_nil, List.append_nil]
      · obtain ⟨cs₁, ms₁, cs₂, ms₂, h₁, h₂, hcs, hms⟩ :=
          F'.way_through hway (Nat.lt_of_lt_of_le hs E'.size_le) hle
        refine ⟨(cs₁, ms₁), (hways.mem_iff _).mpr ⟨x, hxmem, (F'.way_iff hx).mp h₁⟩, ?_⟩
        exact List.mem_map.mpr
          ⟨(cs₂, ms₂), (hmore.mem_iff _).mpr ⟨y, hy, h₂⟩, Prod.ext hcs.symm hms.symm⟩
  · rw [inSequence, continued, List.map_flatMap, List.flatMap_map]
    exact List.flatMap_congr fun v _ => by rw [List.map_map, List.map_map]; rfl

/-- The ways through two extensions from one state, if the first one leads on. -/
theorem union (E : Enumerates g h s xs l) (F : Enumerates h k s ys m) (hs : s < g.size)
    (hxs : s ∉ xs) : Enumerates g k s (xs ++ ys) (l ++ m) := by
  obtain ⟨⟨_, E'⟩, ways, hways, rfl⟩ := E
  obtain ⟨⟨_, F'⟩, more, hmore, rfl⟩ := F
  have hold : ∀ {y : Nat} {w : List Nat × List Mark}, y ∈ xs →
      (k.Way s w.1 w.2 y ↔ h.Way s w.1 w.2 y) := fun hy => F'.way_iff (E'.exit_lt hs hy)
  refine ⟨⟨_, E'.union F' hs⟩, ways ++ more, ⟨?_, fun w => ?_⟩, List.map_append⟩
  · refine List.nodup_append.mpr ⟨hways.nodup, hmore.nodup, fun w hw w' hw' heq => ?_⟩
    subst heq
    obtain ⟨x, hx, hway⟩ := (hways.mem_iff w).mp hw
    obtain ⟨y, hy, hway'⟩ := (hmore.mem_iff w).mp hw'
    obtain rfl := (((hold hx).mpr hway).unique hway').2
    rcases F'.exits_new x hy with rfl | ⟨hle, -⟩
    · exact hxs hx
    · exact Nat.not_lt_of_le hle (E'.exit_lt hs hx)
  · rw [List.mem_append, hways.mem_iff, hmore.mem_iff]
    constructor
    · rintro (⟨y, hy, hway⟩ | ⟨y, hy, hway⟩)
      · exact ⟨y, List.mem_append_left ys hy, (hold hy).mpr hway⟩
      · exact ⟨y, List.mem_append_right xs hy, hway⟩
    · rintro ⟨y, hy, hway⟩
      rcases List.mem_append.mp hy with hy | hy
      · exact .inl ⟨y, hy, (hold hy).mp hway⟩
      · exact .inr ⟨y, hy, hway⟩

/-- Joining the exits in a new state lists the same marks. -/
theorem join (E : Enumerates g h s xs l) (hs : s < g.size) :
    Enumerates g (h.join xs).1 s [(h.join xs).2] l := by
  obtain ⟨⟨_, E'⟩, ways, hways, rfl⟩ := E
  have hjoin := hways.join E'.ascending (fun x hx => E'.exit_lt hs hx)
    (Nat.lt_of_lt_of_le hs E'.size_le)
  refine ⟨⟨_, E'.join hs⟩, _, hjoin, ?_⟩
  rw [List.map_map]
  rfl

end Enumerates

/-! ## What the builder adds -/

theorem enumerates_emit {g : Graph} (hg : g.Ascending) {s : Nat} (hs : s < g.size)
    (label : String) :
    Enumerates g (g.emit s label).1 s [(g.emit s label).2] [saidMarks [label]] := by
  have hh := hg.addState .none
  have hs' : s < g.addState.size := Nat.lt_of_lt_of_le hs (by rw [size_addState]; omega)
  have hspelled : saidMarks [label] = Mark.spelled ⟨"", Label.pack label⟩ := List.append_nil _
  rw [hspelled]
  refine .of_edge ⟨_, extends_emit hg hs label⟩ hs ?_
  rw [emit, hh.valid.mark?_addEdge hs', if_pos ⟨rfl, rfl⟩]

theorem enumerates_emitAll {g : Graph} {s : Nat} :
    ∀ (labels : List String), g.Ascending → s < g.size →
      Enumerates g (g.emitAll s labels).1 s [(g.emitAll s labels).2] [saidMarks labels] := by
  intro labels
  induction labels generalizing g s with
  | nil => exact fun hg _ => .refl hg s
  | cons label rest ih =>
      intro hg hs
      have E := enumerates_emit hg hs label
      have F := E.trans (ih E.ascending (E.exit_lt hs (List.mem_singleton_self _))) hs
      rw [inSequence_singleton, List.map_singleton, ← saidMarks_append,
        List.singleton_append] at F
      exact F

/-- A word's edge; the loop of a wildcard is on no way. -/
theorem enumerates_addWord {g : Graph} (hg : g.Ascending) {s : Nat} (hs : s < g.size)
    (hidden : Bool) (text : String) :
    Enumerates g (g.addWord s text (if hidden then "" else Label.pack text)).1 s
      [(g.addWord s text (if hidden then "" else Label.pack text)).2]
      [wordMarks hidden text] := by
  have hh := hg.addState (some text)
  have hs' : s < (g.addState (some text)).size := by
    rw [size_addState]
    exact Nat.lt_succ_of_lt hs
  have E := extends_addWord hg hs hidden text
  refine .of_edge ⟨_, E⟩ hs ?_
  by_cases hwild : (text == wildcard) = true
  · have hk := hh.addEdge hs' (.inr ⟨rfl, rfl⟩ : _ ∨ (s = s ∧ (⟨wildcard, wildcard⟩ : Mark) = _))
    have hsk : s < ((g.addState (some text)).addEdge s s wildcard wildcard).size := by
      rw [size_addEdge]
      exact hs'
    simp only [addWord, hwild, if_true]
    rw [hk.valid.mark?_addEdge hsk, if_pos ⟨rfl, rfl⟩]
  · rw [Bool.not_eq_true] at hwild
    simp only [addWord, hwild, Bool.false_eq_true, if_false]
    rw [hh.valid.mark?_addEdge hs', if_pos ⟨rfl, rfl⟩]

end Graph

end Utterance
