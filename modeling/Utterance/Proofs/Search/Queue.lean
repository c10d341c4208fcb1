import Mathlib.Logic.Function.Iterate
import Utterance.Proofs.Compile.Counting
import Utterance.Proofs.Search.Permissive

/-!
# Searches as loops over a queue

Both searches can be run as a loop: the visit in front of a queue is taken off, and
the visits that it leads to are put at the end.  The definitions go by levels
instead, and bound their number.  The two agree, because a queue that starts with a
level holds the next one when the last visit of the level has been taken
(`Loop.turns_level`).

In a compiled graph every edge leads to a larger state or is the loop of a wildcard,
and such a loop consumes a token.  So the steps behind a visit and the tokens in
front of it are together no more than its state and the tokens that there were
(`Graph.Within`).  One turn keeps this, hence all turns do.  It bounds the length of
every path that is ever on the queue, and levels of longer paths are empty, so the
queue runs out (`ordered_ofSentences`).
-/

namespace Utterance

/-! ## Loops over a queue -/

/-- A loop in progress: what it has come to, and the visits that wait for their turn,
the next one in front. -/
structure Loop (σ α : Type) where
  state : σ
  waiting : List α

namespace Loop

variable {σ α : Type}

section

-- what a visit comes to, and the visits that it puts at the end of the queue; none if the
-- loop is left there
variable (visit : σ → α → σ × Option (List α))

/-- One iteration.  Nothing happens any more when nothing waits. -/
def turn : Loop σ α → Loop σ α
  | ⟨s, []⟩ => ⟨s, []⟩
  | ⟨s, v :: waiting⟩ => ⟨(visit s v).1, ((visit s v).2.map (waiting ++ ·)).getD []⟩

/-- The visits of a level in turn, and those that follow the level. -/
def sweep : σ → List α → σ × Option (List α)
  | s, [] => (s, some [])
  | s, v :: level =>
    match visit s v with
    | (s, some next) => ((sweep s level).1, (sweep s level).2.map (next ++ ·))
    | (s, none) => (s, none)

/-- One level. -/
def round (l : Loop σ α) : Loop σ α :=
  ⟨(sweep visit l.state l.waiting).1, (sweep visit l.state l.waiting).2.getD []⟩

end

variable {visit : σ → α → σ × Option (List α)}

theorem sweep_cons_some {s s' : σ} {v : α} {next : List α} (h : visit s v = (s', some next))
    (level : List α) : sweep visit s (v :: level) =
      ((sweep visit s' level).1, (sweep visit s' level).2.map (next ++ ·)) := by
  rw [sweep, h]

theorem sweep_cons_none {s s' : σ} {v : α} (h : visit s v = (s', none)) (level : List α) :
    sweep visit s (v :: level) = (s', none) := by
  rw [sweep, h]

theorem turns_nil (n : Nat) (s : σ) : (turn visit)^[n] ⟨s, []⟩ = ⟨s, []⟩ :=
  Function.iterate_fixed rfl n

variable (visit) in
/-- When a level has been taken off the queue, the next level is at the end. -/
theorem turns_level (level rest : List α) (s : σ) :
    (turn visit)^[level.length] ⟨s, level ++ rest⟩ =
      ⟨(sweep visit s level).1, ((sweep visit s level).2.map (rest ++ ·)).getD []⟩ := by
  induction level generalizing s rest with
  | nil => simp [sweep]
  | cons v level ih =>
      rw [List.length_cons, Function.iterate_succ_apply, List.cons_append, turn, sweep]
      rcases visit s v with ⟨s', _ | next⟩
      · exact turns_nil level.length s'
      · rw [Option.map_some, Option.getD_some, List.append_assoc, ih]
        simp [Function.comp_def]

theorem turns_waiting (l : Loop σ α) : (turn visit)^[l.waiting.length] l = round visit l := by
  have hlevel := turns_level visit l.waiting [] l.state
  simpa [round] using hlevel

variable (visit) in
/-- So many levels are some number of turns, and no fewer. -/
theorem exists_turns_eq (k : Nat) (l : Loop σ α) :
    ∃ n, k ≤ n ∧ (turn visit)^[n] l = (round visit)^[k] l := by
  induction k generalizing l with
  | zero => exact ⟨0, Nat.le_refl 0, rfl⟩
  | succ k ih =>
      obtain ⟨n, hn, hturns⟩ := ih (round visit l)
      obtain ⟨s, _ | ⟨v, waiting⟩⟩ := l
      · refine ⟨k + 1, Nat.le_refl _, ?_⟩
        rw [turns_nil, Function.iterate_fixed rfl]
      · refine ⟨n + (v :: waiting).length, Nat.add_le_add hn (Nat.le_add_left 1 _), ?_⟩
        rw [Function.iterate_add_apply, turns_waiting ⟨s, v :: waiting⟩, hturns,
          Function.iterate_succ_apply]

/-- If nothing waits after some number of turns, nothing waits after that many levels. -/
theorem rounds_waiting_eq_nil {l : Loop σ α} {n : Nat}
    (h : ((turn visit)^[n] l).waiting = []) : ((round visit)^[n] l).waiting = [] := by
  obtain ⟨m, hm, hturns⟩ := exists_turns_eq visit n l
  obtain ⟨more, rfl⟩ := Nat.exists_eq_add_of_le' hm
  obtain ⟨s, hs⟩ : ∃ s, (turn visit)^[n] l = ⟨s, []⟩ := ⟨_, by rw [← h]⟩
  rw [← hturns, Function.iterate_add_apply, hs, turns_nil]

/-- A visit that is as `P` says leads only to such visits, each a step further. -/
def Steps (visit : σ → α → σ × Option (List α)) (P : α → Prop) (depth : α → Nat) : Prop :=
  ∀ s v, P v → ∀ next, (visit s v).2 = some next → ∀ w ∈ next, P w ∧ depth w = depth v + 1

variable {P : α → Prop} {depth : α → Nat} {l : Loop σ α}

theorem Steps.turn (h : Steps visit P depth) (hl : ∀ v ∈ l.waiting, P v) :
    ∀ w ∈ (turn visit l).waiting, P w := by
  obtain ⟨s, _ | ⟨v, waiting⟩⟩ := l
  · exact hl
  · obtain ⟨hv, hwaiting⟩ := List.forall_mem_cons.mp hl
    intro w hw
    simp only [Loop.turn] at hw
    cases hnext : (visit s v).2 with
    | none =>
        rw [hnext] at hw
        exact (List.not_mem_nil hw).elim
    | some next =>
        rw [hnext, Option.map_some, Option.getD_some, List.mem_append] at hw
        rcases hw with hw | hw
        · exact hwaiting w hw
        · exact (h s v hv next hnext w hw).1

/-- Whatever is ever on the queue is as `P` says. -/
theorem Steps.turns (h : Steps visit P depth) (hl : ∀ v ∈ l.waiting, P v) (n : Nat) :
    ∀ w ∈ ((Loop.turn visit)^[n] l).waiting, P w := by
  induction n generalizing l with
  | zero => exact hl
  | succ n ih => exact ih (h.turn hl)

theorem Steps.sweep (h : Steps visit P depth) {d : Nat} : ∀ {level : List α} {s : σ}
    {next : List α}, (∀ v ∈ level, P v ∧ depth v = d) → (Loop.sweep visit s level).2 = some next →
      ∀ w ∈ next, P w ∧ depth w = d + 1
  | [], s, next, _, hnext, w, hw => by
      cases hnext
      exact (List.not_mem_nil hw).elim
  | v :: level, s, next, hlevel, hnext, w, hw => by
      obtain ⟨⟨hv, hd⟩, hlevel⟩ := List.forall_mem_cons.mp hlevel
      rw [Loop.sweep] at hnext
      rcases hvisit : visit s v with ⟨s', _ | first⟩
      · rw [hvisit] at hnext
        cases hnext
      · rw [hvisit] at hnext
        obtain ⟨later, hlater, rfl⟩ := Option.map_eq_some_iff.mp hnext
        rcases List.mem_append.mp hw with hw | hw
        · rw [← hd]
          exact h s v hv first (by rw [hvisit]) w hw
        · exact h.sweep hlevel hlater w hw

/-- After so many levels only visits of that depth wait. -/
theorem Steps.rounds (h : Steps visit P depth) {d : Nat} (hl : ∀ v ∈ l.waiting, P v ∧ depth v = d)
    (k : Nat) : ∀ w ∈ ((round visit)^[k] l).waiting, P w ∧ depth w = d + k := by
  induction k generalizing l d with
  | zero => exact hl
  | succ k ih =>
      intro w hw
      rw [Nat.add_succ, ← Nat.succ_add]
      refine ih (l := round visit l) (fun v hv => ?_) w hw
      cases hnext : (Loop.sweep visit l.state l.waiting).2 with
      | none =>
          rw [round, hnext] at hv
          exact (List.not_mem_nil hv).elim
      | some next =>
          rw [round, hnext] at hv
          exact h.sweep hl hnext v hv

/-- Where the depth is bounded, no deeper visit is ever on the queue, and the loop comes to
what more levels than the bound come to, and then nothing waits. -/
theorem Steps.ends (h : Steps visit P depth) {bound k : Nat}
    (hbound : ∀ v, P v → depth v ≤ bound) (hl : ∀ v ∈ l.waiting, P v ∧ depth v = 0)
    (hk : bound < k) :
    (∀ n, ∀ v ∈ ((Loop.turn visit)^[n] l).waiting, depth v ≤ bound) ∧
      ∃ n, (Loop.turn visit)^[n] l = ⟨((round visit)^[k] l).state, []⟩ := by
  refine ⟨fun n v hv => hbound v (h.turns (fun w hw => (hl w hw).1) n v hv), ?_⟩
  have hnil : ((round visit)^[k] l).waiting = [] := by
    refine List.eq_nil_iff_forall_not_mem.mpr fun w hw => ?_
    obtain ⟨hw, hdepth⟩ := h.rounds hl k w hw
    have := hbound w hw
    omega
  obtain ⟨n, -, hn⟩ := exists_turns_eq visit k l
  exact ⟨n, by rw [hn, ← hnil]⟩

end Loop

/-! ## The exact search -/

namespace Graph

/-- One iteration of an exact search, which is left when it has found as many paths as
the limit says. -/
def exactVisit (g : Graph) (o : SearchOptions) (optional : String → Bool) (limit : Option Nat)
    (found : List Path) (v : Visit) : List Path × Option (List Visit) :=
  if v.isAccepted g then
    if limit.any (· ≤ found.length + 1) then (found ++ [v.path], none)
    else (found ++ [v.path], some (g.advance o optional v))
  else (found, some (g.advance o optional v))

/-- Where an exact search begins; nothing waits if there are no tokens. -/
def exactLoop (g : Graph) (tokens : List String) : Loop (List Path) Visit :=
  match g.start, tokens with
  | none, _ => ⟨[], []⟩
  | _, [] => ⟨[], []⟩
  | some start, tokens => ⟨[], [⟨start, tokens, []⟩]⟩

variable {g : Graph} {o : SearchOptions} {optional : String → Bool}

theorem foundOn_cons (v : Visit) (level : List Visit) :
    g.foundOn (v :: level) = (if v.isAccepted g then [v.path] else []) ++ g.foundOn level := by
  unfold foundOn
  rw [List.filter_cons]
  split <;> rfl

theorem exactVisit_of_not_accepted {v : Visit} (hv : v.isAccepted g = false) (limit : Option Nat)
    (found : List Path) :
    g.exactVisit o optional limit found v = (found, some (g.advance o optional v)) := by
  rw [exactVisit, hv, if_neg Bool.false_ne_true]

theorem sweep_exactVisit_none (found : List Path) (level : List Visit) :
    Loop.sweep (g.exactVisit o optional none) found level =
      (found ++ g.foundOn level, some (level.flatMap (g.advance o optional))) := by
  induction level generalizing found with
  | nil => simp [Loop.sweep, foundOn]
  | cons v level ih =>
      rw [foundOn_cons]
      cases hv : v.isAccepted g with
      | true =>
          have hvisit : g.exactVisit o optional none found v =
              (found ++ [v.path], some (g.advance o optional v)) := by
            rw [exactVisit, if_pos hv]
            rfl
          rw [Loop.sweep_cons_some hvisit, ih]
          simp
      | false =>
          rw [Loop.sweep_cons_some (exactVisit_of_not_accepted hv none found), ih]
          simp

/-- A level adds what is found on it, until there is no room. -/
theorem sweep_exactVisit_some {limit room : Nat} {found : List Path}
    (hroom : found.length + room = max 1 limit) (hpos : 1 ≤ room) (level : List Visit) :
    Loop.sweep (g.exactVisit o optional (some limit)) found level =
      if room ≤ (g.foundOn level).length then (found ++ (g.foundOn level).take room, none)
      else (found ++ g.foundOn level, some (level.flatMap (g.advance o optional))) := by
  induction level generalizing found room with
  | nil =>
      have hnil : ¬ room ≤ (g.foundOn []).length := Nat.not_le_of_lt hpos
      rw [if_neg hnil]
      simp [Loop.sweep, foundOn]
  | cons v level ih =>
      rw [foundOn_cons]
      cases hv : v.isAccepted g with
      | true =>
          by_cases hlast : limit ≤ found.length + 1
          · have hvisit : g.exactVisit o optional (some limit) found v =
                (found ++ [v.path], none) := by simp [exactVisit, hv, hlast]
            obtain rfl : room = 1 := by omega
            rw [Loop.sweep_cons_none hvisit]
            simp
          · have hvisit : g.exactVisit o optional (some limit) found v =
                (found ++ [v.path], some (g.advance o optional v)) := by
              simp [exactVisit, hv, hlast]
            obtain ⟨room, rfl⟩ := Nat.exists_eq_add_of_le' hpos
            have hlonger : (found ++ [v.path]).length + room = max 1 limit := by
              rw [List.length_append, List.length_singleton]
              omega
            rw [Loop.sweep_cons_some hvisit, ih hlonger (by omega)]
            simp only [if_true, List.singleton_append, List.length_cons,
              Nat.add_le_add_iff_right, List.take_succ_cons, List.flatMap_cons]
            split <;> simp
      | false =>
          rw [Loop.sweep_cons_some (exactVisit_of_not_accepted hv _ found), ih hroom hpos]
          simp only [Bool.false_eq_true, if_false, List.nil_append, List.flatMap_cons]
          split <;> rfl

theorem rounds_exactVisit_nil (limit : Option Nat) (k : Nat) (found : List Path) :
    (Loop.round (g.exactVisit o optional limit))^[k] ⟨found, []⟩ = ⟨found, []⟩ :=
  Function.iterate_fixed rfl k

/-- What the search has found after so many levels. -/
theorem rounds_exactVisit (limit : Option Nat) (k : Nat) {found : List Path} (level : List Visit)
    (h : ∀ n ∈ limit, found.length < max 1 n) :
    ((Loop.round (g.exactVisit o optional limit))^[k] ⟨found, level⟩).state =
      found ++ g.exactFrom o optional k (limit.map fun n => max 1 n - found.length) level := by
  induction k generalizing found level with
  | zero => exact (List.append_nil found).symm
  | succ k ih =>
      by_cases hne : level = []
      · rw [hne, rounds_exactVisit_nil, exactFrom_nil, List.append_nil]
      rw [Function.iterate_succ_apply, exactFrom_succ hne, Loop.round]
      cases limit with
      | none =>
          rw [sweep_exactVisit_none, Option.getD_some, ih _ nofun, List.append_assoc]
          rfl
      | some n =>
          have hlt : found.length < max 1 n := h n rfl
          have hroom : found.length + (max 1 n - found.length) = max 1 n := by omega
          rw [sweep_exactVisit_some hroom (by omega), Option.map_some]
          simp only
          split
          next => rw [Option.getD_none, rounds_exactVisit_nil]
          next hfew =>
            have hlength : (found ++ g.foundOn level).length =
                found.length + (g.foundOn level).length := List.length_append
            have hmore : ∀ m ∈ some n, (found ++ g.foundOn level).length < max 1 m := by
              rintro m ⟨⟩
              omega
            rw [Option.getD_some, ih _ hmore, Option.map_some, List.append_assoc, hlength,
              Nat.sub_add_eq]

/-- Either there is nothing to search, or a search begins at the start with all tokens. -/
theorem exactLoop_cases (g : Graph) (tokens : List String) :
    (g.exactLoop tokens = ⟨[], []⟩ ∧
      ∀ o optional limit, g.exactPaths o tokens optional limit = []) ∨
    ∃ start, g.start = some start ∧ tokens ≠ [] ∧
      g.exactLoop tokens = ⟨[], [⟨start, tokens, []⟩]⟩ := by
  unfold exactLoop exactPaths
  cases g.start with
  | none => exact .inl ⟨rfl, fun _ _ _ => rfl⟩
  | some start =>
      cases tokens with
      | nil => exact .inl ⟨rfl, fun _ _ _ => rfl⟩
      | cons => exact .inr ⟨start, rfl, List.cons_ne_nil _ _, rfl⟩

/-- At the bound the levels have come to what the search is defined to find. -/
theorem rounds_exactLoop {start : Nat} (hstart : g.start = some start) (limit : Option Nat)
    (tokens : List String) :
    ((Loop.round (g.exactVisit o optional limit))^[g.exactBound tokens
      ((limit.map (max 1)).getD 0)] (g.exactLoop tokens)).state =
        g.exactPaths o tokens optional limit := by
  rcases g.exactLoop_cases tokens with ⟨hloop, hnone⟩ | ⟨start', hstart', hne, hloop⟩
  · rw [hloop, hnone, rounds_exactVisit_nil]
  · obtain rfl := Option.some.inj (hstart.symm.trans hstart')
    have hroom : ∀ n ∈ limit, ([] : List Path).length < max 1 n := fun n _ =>
      Nat.lt_of_lt_of_le Nat.zero_lt_one (Nat.le_max_left 1 n)
    rw [hloop, rounds_exactVisit limit _ _ hroom, exactPaths_eq hstart hne]
    rfl

theorem eq_of_mem_exactLoop {start : Nat} (hstart : g.start = some start) {tokens : List String}
    {v : Visit} (hv : v ∈ (g.exactLoop tokens).waiting) : v = ⟨start, tokens, []⟩ := by
  rcases g.exactLoop_cases tokens with ⟨hloop, -⟩ | ⟨start', hstart', -, hloop⟩
  · rw [hloop] at hv
    exact (List.not_mem_nil hv).elim
  · obtain rfl := Option.some.inj (hstart.symm.trans hstart')
    rw [hloop] at hv
    exact List.mem_singleton.mp hv

end Graph

/-! ## The tolerant search -/

section

variable {κ : Type} [Cost κ]

/-- One iteration of a tolerant search.  A visit that costs more than the ceiling leads
nowhere. -/
def TolerantSearch.visit (g : Graph) (o : SearchOptions) (rule : CostRule κ)
    (s : TolerantSearch κ) (v : TolerantVisit κ) :
    TolerantSearch κ × Option (List (TolerantVisit κ)) :=
  (s.record g v,
    some (if Cost.less (s.record g v).ceiling v.cost then [] else advance g o rule v))

/-- Where a tolerant search begins; nothing waits if there are no tokens. -/
def Graph.tolerantLoop (g : Graph) (tokens : List String) :
    Loop (TolerantSearch κ) (TolerantVisit κ) :=
  match g.start, tokens with
  | none, _ => ⟨⟨[], Cost.ofNat g.size⟩, []⟩
  | _, [] => ⟨⟨[], Cost.ofNat g.size⟩, []⟩
  | some start, tokens =>
    ⟨⟨[], Cost.ofNat g.size⟩, [⟨start, tokens, [], 0, Cost.ofNat 0, none⟩]⟩

variable {g : Graph} {o : SearchOptions} {rule : CostRule κ}

theorem TolerantSearch.sweep_visit (s : TolerantSearch κ) (level : List (TolerantVisit κ)) :
    Loop.sweep (visit g o rule) s level =
      ((sweep g o rule s level).1, some (sweep g o rule s level).2) := by
  induction level generalizing s with
  | nil => rfl
  | cons v level ih =>
      rw [Loop.sweep_cons_some rfl, ih]
      rfl

/-- What the search has come to after so many levels. -/
theorem TolerantSearch.rounds_visit (k : Nat) (s : TolerantSearch κ)
    (level : List (TolerantVisit κ)) :
    ((Loop.round (visit g o rule))^[k] ⟨s, level⟩).state = run g o rule k s level := by
  induction k generalizing s level with
  | zero => rfl
  | succ k ih =>
      have hround : Loop.round (visit g o rule) ⟨s, level⟩ =
          ⟨(sweep g o rule s level).1, (sweep g o rule s level).2⟩ := by
        rw [Loop.round, sweep_visit]
        rfl
      rw [Function.iterate_succ_apply, hround, ih]
      cases level with
      | nil => cases k <;> rfl
      | cons v level => rfl

theorem TolerantSearch.rounds_tolerantLoop {start : Nat} (hstart : g.start = some start)
    (tokens : List String) :
    ((Loop.round (visit g o rule))^[g.tolerantBound tokens] (g.tolerantLoop tokens)).state.found =
      g.tolerantMatches o rule tokens := by
  unfold Graph.tolerantLoop Graph.tolerantMatches
  rw [hstart]
  cases tokens with
  | nil =>
      rw [rounds_visit]
      cases g.tolerantBound [] <;> rfl
  | cons => rw [rounds_visit]

theorem eq_of_mem_tolerantLoop {start : Nat} (hstart : g.start = some start)
    {tokens : List String} {v : TolerantVisit κ} (hv : v ∈ (g.tolerantLoop tokens).waiting) :
    v = ⟨start, tokens, [], 0, Cost.ofNat 0, none⟩ := by
  unfold Graph.tolerantLoop at hv
  rw [hstart] at hv
  cases tokens with
  | nil => exact (List.not_mem_nil hv).elim
  | cons => exact List.mem_singleton.mp hv

end

/-! ## Searches that end -/

namespace Graph

variable {g : Graph} {o : SearchOptions} {tokens : List String}

-- `Q` holds of where a visit is, what is left there and the steps behind it, the last one first
variable {Q : Nat → List String → Path → Prop}

/-- What is kept when a visit leads on is kept by the turns of an exact search. -/
theorem steps_exactVisit {optional : String → Bool} {P : Visit → Prop}
    (hP : ∀ v, P v → ∀ w ∈ g.advance o optional v, P w) (limit : Option Nat) :
    Loop.Steps (g.exactVisit o optional limit) P fun v => v.back.length := by
  intro found v hv next hnext w hw
  have hnext : next = g.advance o optional v := by
    unfold exactVisit at hnext
    split at hnext
    · split at hnext
      · cases hnext
      · exact (Option.some.inj hnext).symm
    · exact (Option.some.inj hnext).symm
  rw [hnext] at hw
  obtain ⟨e, -, matched, -, -, hback⟩ := mem_advance.mp hw
  exact ⟨hP v hv w hw, congrArg List.length hback⟩

/-- Where that bounds the steps, an exact search bounds its paths, and ends with what it is
defined to find. -/
theorem ends_exactVisit {start : Nat} (hstart : g.start = some start) {optional : String → Bool}
    {P : Visit → Prop} (hP : ∀ v, P v → ∀ w ∈ g.advance o optional v, P w)
    (hfirst : P ⟨start, tokens, []⟩) {bound : Nat} (hle : ∀ v, P v → v.back.length ≤ bound)
    (hbound : bound ≤ g.size * (tokens.length + 1)) (limit : Option Nat) :
    (∀ n, ∀ v ∈ ((Loop.turn (g.exactVisit o optional limit))^[n] (g.exactLoop tokens)).waiting,
      v.path.length ≤ bound) ∧
    ∃ n, (Loop.turn (g.exactVisit o optional limit))^[n] (g.exactLoop tokens) =
      ⟨g.exactPaths o tokens optional limit, []⟩ := by
  have hwaiting : ∀ v ∈ (g.exactLoop tokens).waiting, P v ∧ v.back.length = 0 := by
    intro v hv
    obtain rfl := eq_of_mem_exactLoop hstart hv
    exact ⟨hfirst, rfl⟩
  obtain ⟨hshort, n, hn⟩ := (steps_exactVisit hP limit).ends hle hwaiting
    (Nat.lt_of_le_of_lt hbound (lt_exactBound g tokens ((limit.map (max 1)).getD 0)))
  refine ⟨fun n v hv => ?_, n, ?_⟩
  · rw [Visit.path, List.length_reverse]
    exact hshort n v hv
  · rw [hn, rounds_exactLoop hstart]

theorem steps_tolerantVisit {κ : Type} [Cost κ] (hg : g.Valid) {rule : CostRule κ}
    (hQ : ∀ {a b e rest h back}, Q a rest back → g.edge? a b = some e →
      rule e.input rest = some h → Q b (rest.drop h.consumed) (⟨a, b, h.matched⟩ :: back)) :
    Loop.Steps (TolerantSearch.visit g o rule) (fun v => Q v.state v.rest v.back)
      fun v => v.back.length := by
  intro s v hv next hnext w hw
  obtain rfl := Option.some.inj hnext
  split at hw
  · exact (List.not_mem_nil hw).elim
  · obtain ⟨e, he, hcross⟩ := List.mem_filterMap.mp hw
    obtain ⟨h, hh, rfl⟩ := Option.map_eq_some_iff.mp hcross
    exact ⟨hQ hv (hg.mem_edgesFrom.mp (List.mem_filter.mp he).1) hh, rfl⟩

theorem lt_tolerantBound (g : Graph) (tokens : List String) :
    g.size * (tokens.length + 1) < g.tolerantBound tokens := by
  rw [tolerantBound]
  nlinarith [Nat.zero_le (g.size * g.size), Nat.zero_le (g.size * tokens.length)]

section

variable (hg : g.Valid) {start : Nat} (hstart : g.start = some start) (hfirst : Q start tokens [])
  {bound : Nat} (hle : ∀ {s rest back}, Q s rest back → back.length ≤ bound)
  (hbound : bound ≤ g.size * (tokens.length + 1))

include hg hstart hfirst hle hbound

/-- What is kept when an edge is heard bounds the paths of an exact search, if it bounds the steps
behind a visit. -/
theorem turns_exactVisit {optional : String → Bool}
    (hQ : ∀ {a b e rest matched left back}, Q a rest back → g.edge? a b = some e →
      e.hear? o optional rest = some (matched, left) → Q b left (⟨a, b, matched⟩ :: back))
    (limit : Option Nat) :
    (∀ n, ∀ v ∈ ((Loop.turn (g.exactVisit o optional limit))^[n] (g.exactLoop tokens)).waiting,
      v.path.length ≤ bound) ∧
    ∃ n, (Loop.turn (g.exactVisit o optional limit))^[n] (g.exactLoop tokens) =
      ⟨g.exactPaths o tokens optional limit, []⟩ := by
  refine ends_exactVisit hstart (P := fun v => Q v.state v.rest v.back) (fun v hv w hw => ?_) hfirst
    (fun v hv => hle hv) hbound limit
  obtain ⟨e, he, matched, hhear, hstate, hback⟩ := mem_advance.mp hw
  have hedge := hg.mem_edgesFrom.mp (List.mem_filter.mp he).1
  rw [hstate, hback]
  exact hQ hv hedge hhear

/-- And so does a tolerant search. -/
theorem turns_tolerantVisit {κ : Type} [Cost κ] {rule : CostRule κ}
    (hQ : ∀ {a b e rest h back}, Q a rest back → g.edge? a b = some e →
      rule e.input rest = some h → Q b (rest.drop h.consumed) (⟨a, b, h.matched⟩ :: back)) :
    (∀ n, ∀ v ∈ ((Loop.turn (TolerantSearch.visit g o rule))^[n]
        (g.tolerantLoop tokens : Loop (TolerantSearch κ) (TolerantVisit κ))).waiting,
      v.back.reverse.length ≤ bound) ∧
    ∃ n s, (Loop.turn (TolerantSearch.visit g o rule))^[n]
        (g.tolerantLoop tokens : Loop (TolerantSearch κ) (TolerantVisit κ)) = ⟨s, []⟩ ∧
      s.found = g.tolerantMatches o rule tokens := by
  have hwaiting : ∀ v ∈ (g.tolerantLoop tokens : Loop (TolerantSearch κ) _).waiting,
      Q v.state v.rest v.back ∧ v.back.length = 0 := by
    intro v hv
    obtain rfl := eq_of_mem_tolerantLoop hstart hv
    exact ⟨hfirst, rfl⟩
  obtain ⟨hshort, n, hn⟩ := (steps_tolerantVisit (o := o) hg hQ).ends (fun v hv => hle hv) hwaiting
    (Nat.lt_of_le_of_lt hbound (lt_tolerantBound g tokens))
  refine ⟨fun n v hv => ?_, n, _, hn, TolerantSearch.rounds_tolerantLoop hstart tokens⟩
  rw [List.length_reverse]
  exact hshort n v hv

end

end Graph

/-! ## Ascending graphs -/

theorem Edge.length_lt_of_hear? {o : SearchOptions} {optional : String → Bool} {e : Edge}
    {rest matched left : List String} (hwild : e.input = wildcard)
    (h : e.hear? o optional rest = some (matched, left)) : left.length < rest.length := by
  have hsilent : e.isEpsilon = false := by rw [isEpsilon, hwild]; rfl
  cases rest with
  | nil => simp [hear?, hsilent] at h
  | cons token later =>
      simp only [hear?, hsilent, hwild, BEq.rfl, Bool.true_or, Bool.false_eq_true, if_false,
        if_true, Option.some.injEq, Prod.mk.injEq] at h
      obtain ⟨-, rfl⟩ := h
      exact Nat.lt_succ_self _

theorem length_lt_of_usualCost {κ : Type} [Cost κ] {o : SearchOptions}
    {stopWords rest : List String} {h : Hearing κ}
    (hh : usualCost o stopWords wildcard rest = some h) :
    (rest.drop h.consumed).length < rest.length := by
  cases rest with
  | nil => cases hh
  | cons token later =>
      obtain rfl : (⟨Cost.tenth, 1, [token]⟩ : Hearing κ) = h := Option.some.inj hh
      exact Nat.lt_succ_self _

namespace Graph

/-- The steps behind a visit and the tokens in front of it are together no more than its
state and all tokens. -/
structure Within (g : Graph) (tokens : List String) (s : Nat) (rest : List String)
    (back : Path) : Prop where
  state_lt : s < g.size
  length_le : back.length + rest.length ≤ s + tokens.length

variable {g : Graph} {o : SearchOptions} {tokens : List String}

/-- An edge to a larger state adds a step, and a loop consumes a token. -/
theorem Within.step (hg : g.Ascending) {a b : Nat} {rest left : List String} {back : Path}
    (hv : g.Within tokens a rest back) {e : Edge} (he : g.edge? a b = some e)
    (hleft : left.length ≤ rest.length)
    (hloop : e.input = wildcard → left.length < rest.length) (step : PathStep) :
    g.Within tokens b left (step :: back) := by
  have hm := mark?_of_edge? he
  have hle := hv.length_le
  refine ⟨hg.lt_size hm, ?_⟩
  rw [List.length_cons]
  rcases hg.lt_or_loop hm with hlt | ⟨rfl, hmark⟩
  · omega
  · have := hloop (congrArg Mark.input hmark)
    omega

theorem Within.length_back_le {s : Nat} {rest : List String} {back : Path}
    (hv : g.Within tokens s rest back) : back.length ≤ (g.size - 1) + tokens.length := by
  have := hv.state_lt
  have := hv.length_le
  omega

theorem Within.hear (hg : g.Ascending) {optional : String → Bool} {a b : Nat} {e : Edge}
    {rest matched left : List String} {back : Path} (hv : g.Within tokens a rest back)
    (he : g.edge? a b = some e) (hhear : e.hear? o optional rest = some (matched, left)) :
    g.Within tokens b left (⟨a, b, matched⟩ :: back) := by
  refine hv.step hg he ?_ (fun hwild => Edge.length_lt_of_hear? hwild hhear) _
  rw [(Edge.takes_of_hear? hhear).2, List.length_append]
  exact Nat.le_add_left _ _

theorem Within.spend (hg : g.Ascending) {κ : Type} [Cost κ] {stopWords : List String} {a b : Nat}
    {e : Edge} {rest : List String} {h : Hearing κ} {back : Path}
    (hv : g.Within tokens a rest back) (he : g.edge? a b = some e)
    (hh : usualCost o stopWords e.input rest = some h) :
    g.Within tokens b (rest.drop h.consumed) (⟨a, b, h.matched⟩ :: back) := by
  refine hv.step hg he ?_ (fun hwild => ?_) _
  · rw [List.length_drop]
    exact Nat.sub_le _ _
  · rw [hwild] at hh
    exact length_lt_of_usualCost hh

theorem within_start {start : Nat} (hlt : start < g.size) (tokens : List String) :
    g.Within tokens start tokens [] :=
  ⟨hlt, by simp⟩

theorem within_bound {start : Nat} (hlt : start < g.size) (tokens : List String) :
    (g.size - 1) + tokens.length ≤ g.size * (tokens.length + 1) := by
  have : tokens.length ≤ g.size * tokens.length :=
    Nat.le_mul_of_pos_left _ (Nat.zero_lt_of_lt hlt)
  rw [Nat.mul_succ]
  omega

end Graph

/-- Every edge of a compiled graph leads to a larger state or is the loop of a wildcard.
So whatever an exact or a usual tolerant search puts on its queue has come along at most
as many steps as there are other states and tokens, and both searches come to an empty
queue, holding what they are defined to find. -/
theorem ordered_ofSentences {l : IntentSentences} {t : Table} {c : CompileOptions} {g : Graph}
    (hg : Graph.ofSentences l t c = .ok g) :
    (∀ e ∈ g.edges, e.source < e.target ∨
      (e.source = e.target ∧ e.input = wildcard ∧ e.output = wildcard)) ∧
    (∀ (o : SearchOptions) (optional : String → Bool) (limit : Option Nat) (tokens : List String),
      (∀ n, ∀ v ∈ ((Loop.turn (g.exactVisit o optional limit))^[n] (g.exactLoop tokens)).waiting,
        v.path.length ≤ (g.size - 1) + tokens.length) ∧
      ∃ n, (Loop.turn (g.exactVisit o optional limit))^[n] (g.exactLoop tokens) =
        ⟨g.exactPaths o tokens optional limit, []⟩) ∧
    ∀ (κ : Type) [Cost κ] (o : SearchOptions) (stopWords tokens : List String),
      (∀ n, ∀ v ∈ ((Loop.turn (TolerantSearch.visit g o (usualCost o stopWords)))^[n]
          (g.tolerantLoop tokens : Loop (TolerantSearch κ) (TolerantVisit κ))).waiting,
        v.back.reverse.length ≤ (g.size - 1) + tokens.length) ∧
      ∃ n s, (Loop.turn (TolerantSearch.visit g o (usualCost o stopWords)))^[n]
          (g.tolerantLoop tokens : Loop (TolerantSearch κ) (TolerantVisit κ)) = ⟨s, []⟩ ∧
        s.found = g.tolerantMatches o (usualCost o stopWords) tokens := by
  have hascending := ascending_ofSentences hg
  have hconsistent := consistent_ofSentences hg
  have hstart := start_ofSentences hg
  have hlt := hconsistent.start_lt 0 hstart
  refine ⟨fun e he => ?_, fun o optional limit tokens => ?_, fun κ _ o stopWords tokens => ?_⟩
  · have hedge : g.edge? e.source e.target = some e :=
      hconsistent.edge?_eq_some_iff.mpr ⟨Array.mem_toList_iff.mpr he, rfl⟩
    refine (hascending.lt_or_loop (Graph.mark?_of_edge? hedge)).imp_right fun ⟨hself, hmark⟩ => ?_
    exact ⟨hself, congrArg Mark.input hmark, congrArg Mark.output hmark⟩
  · exact Graph.turns_exactVisit hascending.valid hstart (Graph.within_start hlt tokens)
      Graph.Within.length_back_le (Graph.within_bound hlt tokens) (Graph.Within.hear hascending) limit
  · exact Graph.turns_tolerantVisit hascending.valid hstart (Graph.within_start hlt tokens)
      Graph.Within.length_back_le (Graph.within_bound hlt tokens) (Graph.Within.spend hascending)

/-- There is a loop in this graph, and the search ends all the same. -/
theorem ordered_noteGraph :
    Graph.ofSentences [("Note", [noteSentence])] [] = .ok noteGraph ∧
      (∃ e ∈ noteGraph.edges, e.source = e.target) ∧
      (∀ n, ∀ v ∈ ((Loop.turn (noteGraph.exactVisit {} (fun _ => false) none))^[n]
        (noteGraph.exactLoop (noteTokens 2))).waiting, v.path.length ≤ 8) ∧
      ∃ n, (Loop.turn (noteGraph.exactVisit {} (fun _ => false) none))^[n]
        (noteGraph.exactLoop (noteTokens 2)) = ⟨[notePath 2], []⟩ := by
  obtain ⟨-, hexact, -⟩ := ordered_ofSentences ofSentences_noteSentence
  obtain ⟨hbound, hend⟩ := hexact {} (fun _ => false) none (noteTokens 2)
  have hpaths : noteGraph.exactPaths {} (noteTokens 2) = [notePath 2] := by decide
  rw [hpaths] at hend
  exact ⟨ofSentences_noteSentence, by decide, hbound, hend⟩

end Utterance
