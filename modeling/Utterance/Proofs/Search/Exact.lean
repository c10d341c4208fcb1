import Utterance.Proofs.Search.Follows
import Utterance.Search.Exact

/-!
# What an exact search finds

The levels of the search are the iterates of `advance`, so the paths found are
those of the accepted visits on some level (`of_mem_exactFrom`), and without a
limit they are all of these up to the bound (`mem_exactFrom_of_level`).

A path that is found follows the graph from the start to the final state and
matches all tokens in turn (`follows_of_mem_exactPaths`).  Conversely, without
options a path that matches word for word and is not too long is found
(`mem_exactPaths_of_follows`).
-/

namespace Utterance

/-! ## What an edge matches -/

/-- At most one token is matched, and none by an edge that hears nothing. -/
def Edge.Takes (e : Edge) (matched : List String) : Prop :=
  matched = [] ∨ (e.input ≠ "" ∧ ∃ token, matched = [token])

/-- The tokens in front of an edge are those it matches and those left. -/
theorem Edge.takes_of_hear? {o : SearchOptions} {optional : String → Bool} {e : Edge}
    {rest matched left : List String} (h : e.hear? o optional rest = some (matched, left)) :
    e.Takes matched ∧ rest = matched ++ left := by
  unfold Edge.hear? at h
  split at h
  next =>
    cases h
    exact ⟨.inl rfl, rfl⟩
  next hinput =>
    have hne : e.input ≠ "" := fun heq => hinput (by rw [Edge.isEpsilon, heq]; rfl)
    cases rest with
    | nil => cases h
    | cons token later =>
        simp only at h
        split at h
        · cases h
          exact ⟨.inr ⟨hne, token, rfl⟩, rfl⟩
        · split at h
          · cases h
            exact ⟨.inl rfl, rfl⟩
          · cases h

theorem Edge.hear?_of_silent {e : Edge} (hempty : e.input = "") (o : SearchOptions)
    (optional : String → Bool) (rest : List String) : e.hear? o optional rest = some ([], rest) := by
  have hsilent : e.isEpsilon = true := by rw [Edge.isEpsilon, hempty]; rfl
  unfold Edge.hear?
  rw [if_pos hsilent]

theorem Edge.hear?_nil {e : Edge} (hempty : e.input ≠ "") (o : SearchOptions)
    (optional : String → Bool) : e.hear? o optional [] = none := by
  have hsilent : e.isEpsilon = false := by simpa [Edge.isEpsilon] using hempty
  unfold Edge.hear?
  rw [hsilent, if_neg Bool.false_ne_true]

/-- Without options a word is compared as it stands, and passed over if it is optional. -/
theorem Edge.hear?_cons {e : Edge} (hempty : e.input ≠ "") (hwild : e.input ≠ wildcard)
    (optional : String → Bool) (token : String) (later : List String) :
    e.hear? {} optional (token :: later) =
      if e.input = token then some ([token], later)
      else if optional e.input then some ([], token :: later)
      else none := by
  have hsilent : e.isEpsilon = false := by simpa [Edge.isEpsilon] using hempty
  have hliteral : (e.input == wildcard) = false := by simpa using hwild
  unfold Edge.hear?
  rw [hsilent, if_neg Bool.false_ne_true]
  simp only [hliteral, Bool.false_or, SearchOptions.same, id, beq_iff_eq]

/-- Without options an edge that is no wildcard's matches exactly its word. -/
theorem Edge.hear?_eq_some {e : Edge} (hwild : e.input ≠ wildcard)
    {rest matched left : List String} :
    e.hear? {} (fun _ => false) rest = some (matched, left) ↔
      e.Exactly matched ∧ rest = matched ++ left := by
  by_cases hempty : e.input = ""
  · rw [Edge.hear?_of_silent hempty, Edge.Exactly, Edge.words, if_pos hempty]
    refine ⟨fun h => ?_, fun h => ?_⟩
    · cases h
      exact ⟨rfl, rfl⟩
    · rw [h.2, h.1]
      rfl
  rw [Edge.Exactly, Edge.words, if_neg hempty]
  cases rest with
  | nil =>
      rw [Edge.hear?_nil hempty]
      refine ⟨fun h => (nomatch h), fun h => ?_⟩
      rw [h.1] at h
      cases h.2
  | cons token later =>
      rw [Edge.hear?_cons hempty hwild, if_neg Bool.false_ne_true]
      refine ⟨fun h => ?_, fun h => ?_⟩
      · split at h
        next heq =>
          cases h
          exact ⟨by rw [heq], rfl⟩
        next => cases h
      · obtain ⟨rfl, h⟩ := h
        cases h
        rw [if_pos rfl]
        rfl

namespace Graph

/-! ## Levels -/

/-- The visits so many steps after those of a level. -/
def levels (g : Graph) (o : SearchOptions) (optional : String → Bool) (level : List Visit) :
    Nat → List Visit
  | 0 => level
  | k + 1 => g.levels o optional (level.flatMap (g.advance o optional)) k

variable {g : Graph} {o : SearchOptions} {optional : String → Bool}

theorem levels_nil (k : Nat) : g.levels o optional [] k = [] := by
  induction k with
  | zero => rfl
  | succ k ih => exact ih

/-- A path that is found belongs to an accepted visit of some level. -/
theorem of_mem_exactFrom : ∀ {bound : Nat} {limit : Option Nat} {level : List Visit} {p : Path},
    p ∈ g.exactFrom o optional bound limit level →
      ∃ k, ∃ v ∈ g.levels o optional level k, v.isAccepted g ∧ v.path = p
  | 0, _, _, _, hp => (List.not_mem_nil hp).elim
  | _ + 1, _, [], _, hp => (List.not_mem_nil hp).elim
  | bound + 1, limit, w :: rest, p, hp => by
      have hfound : p ∈ ((w :: rest).filter (Visit.isAccepted g)).map Visit.path →
          ∃ k, ∃ v ∈ g.levels o optional (w :: rest) k, v.isAccepted g ∧ v.path = p := fun h => by
        obtain ⟨v, hv, rfl⟩ := List.mem_map.mp h
        obtain ⟨hv, haccepted⟩ := List.mem_filter.mp hv
        exact ⟨0, v, hv, haccepted, rfl⟩
      have hlater : ∀ {limit}, p ∈ g.exactFrom o optional bound limit
            ((w :: rest).flatMap (g.advance o optional)) →
          ∃ k, ∃ v ∈ g.levels o optional (w :: rest) k, v.isAccepted g ∧ v.path = p := fun h => by
        obtain ⟨k, v, hv, h⟩ := of_mem_exactFrom h
        exact ⟨k + 1, v, hv, h⟩
      unfold exactFrom at hp
      cases limit with
      | none => exact (List.mem_append.mp hp).elim hfound hlater
      | some n =>
          simp only at hp
          split at hp
          · exact hfound (List.mem_of_mem_take hp)
          · exact (List.mem_append.mp hp).elim hfound hlater

/-- Without a limit the accepted visits of all levels up to the bound are
found. -/
theorem mem_exactFrom_of_level : ∀ {bound k : Nat} {level : List Visit} {v : Visit},
    k < bound → v ∈ g.levels o optional level k → v.isAccepted g →
      v.path ∈ g.exactFrom o optional bound none level
  | bound + 1, k, [], v, _, hv, _ => by
      rw [levels_nil] at hv
      exact (List.not_mem_nil hv).elim
  | bound + 1, k, w :: rest, v, hk, hv, haccepted => by
      rw [exactFrom]
      · refine List.mem_append.mpr ?_
        cases k with
        | zero => exact .inl (List.mem_map_of_mem (List.mem_filter.mpr ⟨hv, haccepted⟩))
        | succ k => exact .inr (mem_exactFrom_of_level (Nat.lt_of_succ_lt_succ hk) hv haccepted)
      · exact fun h => nomatch h

/-! ## Visits and paths -/

theorem mem_advance {v w : Visit} :
    w ∈ g.advance o optional v ↔ ∃ e ∈ g.permitted o v.state, ∃ matched,
      e.hear? o optional v.rest = some (matched, w.rest) ∧ w.state = e.target ∧
      w.back = ⟨v.state, e.target, matched⟩ :: v.back := by
  rw [advance, List.mem_filterMap]
  refine exists_congr fun e => and_congr_right fun _ => ?_
  rw [Option.map_eq_some_iff]
  refine ⟨?_, ?_⟩
  · rintro ⟨⟨matched, left⟩, hhear, rfl⟩
    exact ⟨matched, hhear, rfl, rfl⟩
  · rintro ⟨matched, hhear, hstate, hback⟩
    refine ⟨⟨matched, w.rest⟩, hhear, ?_⟩
    cases w
    cases hstate
    cases hback
    rfl

/-- A visit has come along a path from the start, has matched all tokens in
front of those that are left, and every step is as `R` says. -/
structure Visited (g : Graph) (R : Edge → List String → Prop) (start : Nat)
    (tokens : List String) (v : Visit) : Prop where
  follows : g.Follows R start v.path v.state
  tokens_eq : tokens = v.path.tokens ++ v.rest

theorem Visited.advance {R : Edge → List String → Prop} {start : Nat} {tokens : List String}
    {v w : Visit} (hg : g.Valid)
    (hR : ∀ {a b e rest matched left}, g.edge? a b = some e → o.permits e = true →
      e.hear? o optional rest = some (matched, left) → R e matched)
    (hv : g.Visited R start tokens v) (hw : w ∈ g.advance o optional v) :
    g.Visited R start tokens w := by
  obtain ⟨e, he, matched, hhear, hstate, hback⟩ := mem_advance.mp hw
  obtain ⟨hmem, hpermits⟩ := List.mem_filter.mp he
  have hedge := hg.mem_edgesFrom.mp hmem
  have hpath : w.path = v.path ++ [⟨v.state, e.target, matched⟩] := by
    rw [Visit.path, hback, List.reverse_cons]
    rfl
  refine ⟨?_, ?_⟩
  · rw [hpath, hstate]
    exact hv.follows.trans (.single hedge (hR hedge hpermits hhear))
  · rw [hv.tokens_eq, (Edge.takes_of_hear? hhear).2, hpath, Path.tokens, Path.tokens,
      List.flatMap_append, List.flatMap_singleton, List.append_assoc]

theorem Visited.of_mem_levels {R : Edge → List String → Prop} {start : Nat}
    {tokens : List String} (hg : g.Valid)
    (hR : ∀ {a b e rest matched left}, g.edge? a b = some e → o.permits e = true →
      e.hear? o optional rest = some (matched, left) → R e matched) :
    ∀ {k : Nat} {level : List Visit}, (∀ v ∈ level, g.Visited R start tokens v) →
      ∀ v ∈ g.levels o optional level k, g.Visited R start tokens v
  | 0, _, hlevel, v, hv => hlevel v hv
  | k + 1, level, hlevel, v, hv =>
      Visited.of_mem_levels hg hR (k := k) (fun w hw => by
        obtain ⟨u, hu, hw⟩ := List.mem_flatMap.mp hw
        exact (hlevel u hu).advance hg hR hw) v hv

/-- Nothing is found for no tokens. -/
theorem exactPaths_nil (limit : Option Nat) : g.exactPaths o [] optional limit = [] := by
  unfold exactPaths
  split <;> rfl

theorem exactPaths_eq {start : Nat} {tokens : List String} (hstart : g.start = some start)
    (hne : tokens ≠ []) (limit : Option Nat) :
    g.exactPaths o tokens optional limit =
      g.exactFrom o optional (g.exactBound tokens ((limit.map (max 1)).getD 0))
        (limit.map (max 1)) [⟨start, tokens, []⟩] := by
  cases tokens with
  | nil => exact absurd rfl hne
  | cons token rest =>
      unfold exactPaths
      rw [hstart]

/-- A path that an exact search finds follows the graph from the start to the
final state and matches all tokens in turn. -/
theorem follows_of_mem_exactPaths {R : Edge → List String → Prop} {tokens : List String}
    {limit : Option Nat} {p : Path} (hg : g.Valid)
    (hR : ∀ {a b e rest matched left}, g.edge? a b = some e →
      e.hear? o optional rest = some (matched, left) → R e matched)
    (hp : p ∈ g.exactPaths o tokens optional limit) :
    ∃ start final, g.start = some start ∧ g.final = some final ∧
      g.Follows R start p final ∧ p.tokens = tokens := by
  cases hstart : g.start with
  | none =>
      unfold exactPaths at hp
      rw [hstart] at hp
      exact (List.not_mem_nil hp).elim
  | some start =>
      have hne : tokens ≠ [] := by
        rintro rfl
        unfold exactPaths at hp
        rw [hstart] at hp
        exact (List.not_mem_nil hp).elim
      rw [exactPaths_eq hstart hne] at hp
      obtain ⟨k, v, hv, haccepted, rfl⟩ := of_mem_exactFrom hp
      have hfirst : ∀ v ∈ [(⟨start, tokens, []⟩ : Visit)], g.Visited R start tokens v := by
        intro v hv
        obtain rfl := List.mem_singleton.mp hv
        exact ⟨.nil start, rfl⟩
      have hvisited := Visited.of_mem_levels hg (fun he _ hhear => hR he hhear) hfirst v hv
      obtain ⟨hfinal, hrest⟩ := (Bool.and_eq_true _ _).mp haccepted
      refine ⟨start, v.state, rfl, eq_of_beq hfinal, hvisited.follows, ?_⟩
      rw [hvisited.tokens_eq, List.isEmpty_iff.mp hrest, List.append_nil]

/-- Along a path the search reaches its end. -/
theorem mem_levels_of_follows {R : Edge → List String → Prop} (hg : g.Valid)
    (hR : ∀ {a b e matched left}, g.edge? a b = some e → R e matched →
      o.permits e = true ∧ e.hear? o optional (matched ++ left) = some (matched, left))
    {a b : Nat} {p : Path} (hp : g.Follows R a p b) :
    ∀ {level : List Visit} {left : List String} {back : Path},
      ⟨a, p.tokens ++ left, back⟩ ∈ level →
      ⟨b, left, p.reverse ++ back⟩ ∈ g.levels o optional level p.length := by
  induction hp with
  | nil a => exact fun hmem => hmem
  | @cons a b c e matched p he hmatched _ ih =>
      intro level left back hmem
      obtain ⟨-, rfl⟩ := hg.of_edge? he
      have hpass : o.permits e = true ∧ e.hear? o optional (matched ++ (p.tokens ++ left))
          = some (matched, p.tokens ++ left) := hR he hmatched
      have hnext : ⟨e.target, p.tokens ++ left, ⟨a, e.target, matched⟩ :: back⟩ ∈
          level.flatMap (g.advance o optional) := by
        refine List.mem_flatMap.mpr ⟨_, hmem, mem_advance.mpr ⟨e, ?_, matched, ?_, rfl, rfl⟩⟩
        · exact List.mem_filter.mpr ⟨hg.mem_edgesFrom.mpr he, hpass.1⟩
        · have htokens : Path.tokens (⟨a, e.target, matched⟩ :: p) ++ left
              = matched ++ (p.tokens ++ left) := List.append_assoc ..
          rw [htokens]
          exact hpass.2
      have hreach := ih hnext
      rw [List.reverse_cons, List.append_assoc]
      exact hreach

theorem permits_default (e : Edge) : SearchOptions.permits {} e = true := by
  unfold SearchOptions.permits
  split <;> rfl

/-- Without options the paths found are those that follow the graph word for
word, except for paths that are too long. -/
theorem mem_exactPaths_of_follows {start final : Nat} {p : Path} (hg : g.Valid)
    (hwild : g.Inputs (· ≠ wildcard)) (hstart : g.start = some start)
    (hfinal : g.final = some final) (hp : g.Follows Edge.Exactly start p final)
    (hne : p.tokens ≠ []) (hlength : p.length ≤ g.size) : p ∈ g.exactPaths {} p.tokens := by
  have hR : ∀ {a b e matched left}, g.edge? a b = some e → Edge.Exactly e matched →
      SearchOptions.permits {} e = true ∧
        e.hear? {} (fun _ => false) (matched ++ left) = some (matched, left) :=
    fun he hmatched =>
      ⟨permits_default _, (Edge.hear?_eq_some (hwild.of_edge? he)).mpr ⟨hmatched, rfl⟩⟩
  have hmem : ⟨final, [], p.reverse ++ []⟩ ∈
      g.levels {} (fun _ => false) [⟨start, p.tokens, []⟩] p.length :=
    mem_levels_of_follows hg hR hp
      (List.mem_singleton.mpr (by rw [List.append_nil]))
  have haccepted : Visit.isAccepted g ⟨final, [], p.reverse ++ []⟩ = true := by
    simp [Visit.isAccepted, isFinal, hfinal]
  have hbound : p.length < g.exactBound p.tokens 0 := by
    have hone : 1 ≤ p.tokens.length + 1 := Nat.le_add_left 1 _
    have := Nat.mul_le_mul_left g.size hone
    rw [exactBound]
    omega
  rw [exactPaths_eq hstart hne]
  have hfound := mem_exactFrom_of_level hbound hmem haccepted
  rw [Visit.path, List.append_nil, List.reverse_reverse] at hfound
  exact hfound

end Graph

end Utterance
