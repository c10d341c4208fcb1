import Utterance.Proofs.Search.Free
import Utterance.Proofs.Search.Permissive

/-!
# Where the two searches agree

A tolerant search goes by levels as an exact one does.  A visit of it that has cost
nothing has skipped no token and passed no wildcard, so without its cost it is a
visit of the exact search (`usualCost_free`), and none of these is given up.  Hence
level for level the free visits are the plain ones of the exact search, those without
a wildcard on their way, in the same order (`sweep_spec`).

So of the matches that a tolerant search finds for an intent, those that cost nothing
are the exact paths of this intent without a wildcard that say something, and if there
are any then these are the best (`free_matches_eq_exactPaths`).
-/

namespace Utterance

namespace TolerantSearch

variable {κ : Type} [Cost κ] [Cost.Lawful κ] {g : Graph} {o : SearchOptions}
  {stopWords : List String}

/-! ## What is heard for nothing -/

theorem scanTokens_pos {word : String} : ∀ {tokens : List String} {cost : κ} {skipped : Nat}
    {h : Hearing κ}, Cost.Lawful.Positive cost →
      scanTokens o stopWords word cost skipped tokens = some h → Cost.Lawful.Positive h.cost
  | [], _, _, _, _, hh => by cases hh
  | token :: rest, cost, skipped, h, hcost, hh => by
      rw [scanTokens] at hh
      split at hh
      next =>
        cases hh
        exact hcost
      next =>
        refine scanTokens_pos (Cost.Lawful.add hcost ?_) hh
        split
        · exact Cost.Lawful.tenth
        · exact Cost.Lawful.ofNat 1 Nat.one_pos

theorem scanTokens_of_not_same {word token : String} {rest : List String}
    (hsame : o.same word token = false) {h : Hearing κ}
    (hh : scanTokens o stopWords word (Cost.ofNat 0) 0 (token :: rest) = some h) :
    Cost.Lawful.Positive h.cost := by
  rw [scanTokens, hsame, if_neg Bool.false_ne_true] at hh
  refine scanTokens_pos (Cost.Lawful.zero_add ?_) hh
  split
  · exact Cost.Lawful.tenth
  · exact Cost.Lawful.ofNat 1 Nat.one_pos

theorem nonneg_of_usualCost {word : String} {rest : List String} {h : Hearing κ}
    (hh : usualCost o stopWords word rest = some h) : Cost.Nonneg h.cost := by
  unfold usualCost at hh
  split at hh
  next =>
    cases hh
    exact .inl rfl
  next =>
    cases rest with
    | nil => cases hh
    | cons token later =>
        simp only at hh
        split at hh
        next =>
          cases hh
          exact .inr Cost.Lawful.tenth
        next =>
          cases hsame : o.same word token with
          | true =>
              rw [scanTokens, hsame, if_pos rfl] at hh
              cases hh
              exact .inl rfl
          | false => exact .inr (scanTokens_of_not_same hsame hh)

/-- For nothing the usual rule lets an edge hear what it hears exactly, unless it is
a wildcard's. -/
theorem usualCost_free (o : SearchOptions) (stopWords : List String) (e : Edge)
    (rest : List String) :
    ((usualCost o stopWords e.input rest : Option (Hearing κ)).filter (Cost.free ·.cost)).map
        (fun h => (h.matched, rest.drop h.consumed)) =
      if e.input == wildcard then none else e.hear? o (fun _ => false) rest := by
  unfold usualCost Edge.hear?
  by_cases hinput : e.input = ""
  · have hwild : (e.input == wildcard) = false := by rw [hinput]; rfl
    have hempty : e.input.isEmpty = true := by rw [hinput]; rfl
    have hsilent : e.isEpsilon = true := hempty
    rw [hwild, if_neg Bool.false_ne_true, hsilent, if_pos rfl, hempty, if_pos rfl,
      Option.filter_some, if_pos Cost.free_zero]
    rfl
  · have hempty : e.input.isEmpty = false := by simpa using hinput
    have hsilent : e.isEpsilon = false := hempty
    rw [hempty, if_neg Bool.false_ne_true, hsilent, if_neg Bool.false_ne_true]
    cases rest with
    | nil => exact (ite_self _).symm
    | cons token later =>
        simp only
        cases hwild : e.input == wildcard with
        | true =>
            rw [if_pos rfl, if_pos rfl, Option.filter_some,
              Cost.not_free_of_pos Cost.Lawful.tenth, if_neg Bool.false_ne_true]
            rfl
        | false =>
            rw [if_neg Bool.false_ne_true, if_neg Bool.false_ne_true, Bool.false_or]
            cases hsame : o.same e.input token with
            | true =>
                rw [scanTokens, hsame, if_pos rfl, Option.filter_some, if_pos Cost.free_zero]
                rfl
            | false =>
                have hnone : (scanTokens o stopWords e.input (Cost.ofNat 0 : κ) 0
                    (token :: later)).filter (Cost.free ·.cost) = none :=
                  Option.filter_eq_none_iff.mpr fun h hh => by
                    rw [Cost.not_free_of_pos (scanTokens_of_not_same hsame hh)]
                    exact Bool.false_ne_true
                rw [hnone]
                rfl

/-! ## Visits -/

/-- The visit without its cost and what has been said on the way. -/
def plainVisit (v : TolerantVisit κ) : Visit := ⟨v.state, v.rest, v.back⟩

/-- The free ones among some visits, without their costs. -/
def freeVisits (level : List (TolerantVisit κ)) : List Visit :=
  (level.filter (Cost.free ·.cost)).map plainVisit

/-- The visit counts the words said on its way, knows the intent entered last, and
has come along its way at no negative cost. -/
structure Tallied (g : Graph) (v : TolerantVisit κ) : Prop where
  nonneg : Cost.Nonneg v.cost
  said_eq : v.said = g.saidOn v.back.reverse
  intent_eq : v.intent = (g.intentsOn v.back.reverse).getLast?

theorem Tallied.advance (hg : g.Valid) {v w : TolerantVisit κ} (hv : Tallied g v)
    (hw : w ∈ advance g o (usualCost o stopWords) v) : Tallied g w := by
  obtain ⟨e, he, hcross⟩ := List.mem_filterMap.mp hw
  obtain ⟨h, hh, rfl⟩ := Option.map_eq_some_iff.mp hcross
  have hedge := hg.mem_edgesFrom.mp (List.mem_filter.mp he).1
  refine ⟨hv.nonneg.add (nonneg_of_usualCost hh), ?_, ?_⟩
  · rw [List.reverse_cons, Graph.saidOn, List.countP_append, List.countP_singleton, hedge,
      Option.any_some, ← Graph.saidOn, ← hv.said_eq, Edge.says]
    cases e.output.isEmpty || Label.isControl e.output <;> rfl
  · rw [List.reverse_cons, Graph.intentsOn, List.filterMap_append, List.getLast?_append,
      hv.intent_eq]
    simp only [List.filterMap_cons, List.filterMap_nil, hedge, Option.bind_some]
    cases Label.intent? e.output <;> rfl

/-- There is no wildcard on the way of the visit. -/
def plain (g : Graph) (v : Visit) : Bool := g.wildcardsOn v.back == 0

theorem free_cross {v : TolerantVisit κ} {e : Edge} (hfree : Cost.free v.cost = true)
    (hnonneg : Cost.Nonneg v.cost) :
    ((cross? (usualCost o stopWords) v e).filter (Cost.free ·.cost)).map plainVisit =
      (if e.input == wildcard then none else e.hear? o (fun _ => false) v.rest).map
        fun r => ⟨e.target, r.2, ⟨v.state, e.target, r.1⟩ :: v.back⟩ := by
  rw [← usualCost_free (κ := κ) o stopWords, cross?]
  cases hh : (usualCost o stopWords e.input v.rest : Option (Hearing κ)) with
  | none => rfl
  | some h =>
      have hcost : Cost.free (Cost.add v.cost h.cost) = Cost.free h.cost := by
        rw [Cost.free_add hnonneg (nonneg_of_usualCost hh), hfree, Bool.true_and]
      rw [Option.map_some, Option.filter_some, Option.filter_some, hcost]
      split <;> rfl

/-- From a free visit the search comes to those that the exact one comes to, unless
it passes a wildcard. -/
theorem freeVisits_advance (hg : g.Valid) {v : TolerantVisit κ} (hfree : Cost.free v.cost = true)
    (hnonneg : Cost.Nonneg v.cost) (hplain : plain g (plainVisit v) = true) :
    freeVisits (advance g o (usualCost o stopWords) v) =
      (g.advance o (fun _ => false) (plainVisit v)).filter (plain g) := by
  rw [freeVisits, TolerantSearch.advance, Graph.advance, List.filter_filterMap,
    List.map_filterMap, List.filter_filterMap]
  refine List.filterMap_congr fun e he => ?_
  rw [free_cross hfree hnonneg]
  have hedge := hg.mem_edgesFrom.mp (List.mem_filter.mp he).1
  have hstep : ∀ r : List String × List String,
      plain g ⟨e.target, r.2, ⟨v.state, e.target, r.1⟩ :: v.back⟩ = !(e.input == wildcard) := by
    intro r
    have hback : g.wildcardsOn v.back = 0 := eq_of_beq hplain
    have hedge : g.edge? v.state e.target = some e := hedge
    rw [plain, Graph.wildcardsOn, List.countP_cons, ← Graph.wildcardsOn, hback, hedge,
      Option.any_some]
    cases e.input == wildcard <;> rfl
  change _ = ((e.hear? o (fun _ => false) v.rest).map fun r =>
    (⟨e.target, r.2, ⟨v.state, e.target, r.1⟩ :: v.back⟩ : Visit)).filter (plain g)
  cases e.hear? o (fun _ => false) v.rest with
  | none => rw [ite_self]; rfl
  | some r =>
      rw [Option.map_some, Option.filter_some, hstep]
      cases e.input == wildcard <;> rfl

/-! ## Levels -/

omit [Cost.Lawful κ] in
theorem freeVisits_append (level level' : List (TolerantVisit κ)) :
    freeVisits (level ++ level') = freeVisits level ++ freeVisits level' := by
  rw [freeVisits, List.filter_append, List.map_append]
  rfl

omit [Cost.Lawful κ] in
theorem freeVisits_cons (v : TolerantVisit κ) (level : List (TolerantVisit κ)) :
    freeVisits (v :: level) = freeVisits [v] ++ freeVisits level := freeVisits_append [v] level

omit [Cost.Lawful κ] in
theorem freeVisits_singleton (v : TolerantVisit κ) :
    freeVisits [v] = if Cost.free v.cost then [plainVisit v] else [] := by
  rw [freeVisits, List.filter_cons]
  split <;> rfl

/-- What has cost something costs something from there on. -/
theorem freeVisits_advance_eq_nil {v : TolerantVisit κ} (hfree : Cost.free v.cost = false)
    (hnonneg : Cost.Nonneg v.cost) :
    freeVisits (advance g o (usualCost o stopWords) v) = [] := by
  refine List.map_eq_nil_iff.mpr (List.filter_eq_nil_iff.mpr fun w hw => ?_)
  obtain ⟨e, -, hcross⟩ := List.mem_filterMap.mp hw
  obtain ⟨h, hh, rfl⟩ := Option.map_eq_some_iff.mp hcross
  rw [Cost.free_add hnonneg (nonneg_of_usualCost hh), hfree, Bool.false_and]
  exact Bool.false_ne_true

/-- The table is sorted, and the ceiling is not negative. -/
structure Orderly (s : TolerantSearch κ) : Prop where
  sorted : s.found.Sorted
  ceiling : Cost.Nonneg s.ceiling

/-- The paths of the matches for an intent that cost nothing. -/
def freePaths (intent : String) (s : TolerantSearch κ) : List Path :=
  (TolerantMatches.freeFor intent s.found).map TolerantMatch.path

end TolerantSearch

/-- Some word is said on the path, and the intent is the last one that it enters. -/
def Graph.speaks (g : Graph) (intent : String) (p : Path) : Bool :=
  decide (0 < g.saidOn p) && (g.intentsOn p).getLast?.getD "" == intent

namespace TolerantSearch

variable {κ : Type} [Cost κ] [Cost.Lawful κ] {g : Graph} {o : SearchOptions}
  {stopWords : List String} {s : TolerantSearch κ}

theorem foundOn_append (X Y : List Visit) : g.foundOn (X ++ Y) = g.foundOn X ++ g.foundOn Y := by
  rw [Graph.foundOn, List.filter_append, List.map_append]
  rfl

theorem foundOn_freeVisits_singleton {v : TolerantVisit κ} (hv : Tallied g v) (intent : String) :
    (g.foundOn (freeVisits [v])).filter (g.speaks intent) =
      if Cost.free v.cost && (g.isFinal v.state && v.rest.isEmpty) &&
        (decide (0 < v.said) && v.intent.getD "" == intent) then [v.back.reverse] else [] := by
  have hspeaks : g.speaks intent v.back.reverse =
      (decide (0 < v.said) && v.intent.getD "" == intent) := by
    rw [Graph.speaks, hv.said_eq, hv.intent_eq]
  have hfound : g.foundOn [plainVisit v] =
      if g.isFinal v.state && v.rest.isEmpty then [v.back.reverse] else [] := by
    rw [Graph.foundOn, List.filter_cons]
    change List.map Visit.path (if g.isFinal v.state && v.rest.isEmpty then _ else _) = _
    split <;> rfl
  rw [freeVisits_singleton, ← hspeaks]
  cases Cost.free v.cost with
  | false => rfl
  | true =>
      rw [if_pos rfl, hfound]
      cases g.isFinal v.state && v.rest.isEmpty with
      | false => rfl
      | true =>
          rw [if_pos rfl, List.filter_cons]
          rfl

/-- Recording a visit adds its path if the visit is free and accepted. -/
theorem record_spec (hs : Orderly s) {v : TolerantVisit κ} (hv : Tallied g v) :
    Orderly (s.record g v) ∧ ∀ intent, freePaths intent (s.record g v) =
      freePaths intent s ++ (g.foundOn (freeVisits [v])).filter (g.speaks intent) := by
  have hcost := hv.nonneg.add (Cost.nonneg_ofNat v.rest.length)
  have hfree : Cost.free (Cost.add v.cost (Cost.ofNat v.rest.length)) =
      (Cost.free v.cost && v.rest.isEmpty) := by
    rw [Cost.free_add hv.nonneg (Cost.nonneg_ofNat _), Cost.free_ofNat]
    cases v.rest <;> rfl
  have hless : Cost.free v.cost = true →
      Cost.less v.cost (Cost.ofNat v.said) = decide (0 < v.said) := fun hzero => by
    rw [(Cost.free_iff hv.nonneg).mp hzero, Cost.zero_less_ofNat]
  simp only [foundOn_freeVisits_singleton hv]
  unfold record
  split
  next hcond =>
    obtain ⟨hfinal, hcounts⟩ := (Bool.and_eq_true _ _).mp hcond
    obtain ⟨hsorted, -, hadd⟩ := hs.sorted.add
      (m := ⟨v.intent.getD "", v.back.reverse, Cost.add v.cost (Cost.ofNat v.rest.length)⟩) hcost
    refine ⟨⟨hsorted, ?_⟩, fun intent => ?_⟩
    · simp only
      split
      · exact hcost
      · exact hs.ceiling
    · rw [freePaths, hadd, List.map_append, freeOnes, List.filter_cons, hfree, hfinal,
        Bool.true_and]
      refine congrArg _ ?_
      cases hzero : Cost.free v.cost with
      | false => rfl
      | true =>
          rw [← hless hzero, hcounts]
          cases v.rest.isEmpty with
          | false => rfl
          | true => cases hsame : v.intent.getD "" == intent <;> simp [hsame]
  next hcond =>
    refine ⟨hs, fun intent => ?_⟩
    have hnot : (Cost.free v.cost && (g.isFinal v.state && v.rest.isEmpty) &&
        (decide (0 < v.said) && v.intent.getD "" == intent)) = false := by
      cases hzero : Cost.free v.cost with
      | false => rfl
      | true =>
          rw [hless hzero] at hcond
          cases hfinal : g.isFinal v.state with
          | false => rfl
          | true =>
              rw [hfinal, Bool.true_and, Bool.not_eq_true] at hcond
              rw [hcond, Bool.false_and, Bool.and_false]
    rw [hnot, if_neg Bool.false_ne_true, List.append_nil]

/-- What a level adds to the paths, and the level that follows it. -/
theorem sweep_spec (o : SearchOptions) (stopWords : List String) (hg : g.Valid) :
    ∀ {level : List (TolerantVisit κ)} {s : TolerantSearch κ}, Orderly s →
      (∀ v ∈ level, Tallied g v) → (∀ x ∈ freeVisits level, plain g x = true) →
      let after := sweep g o (usualCost o stopWords) s level
      Orderly after.1 ∧
        (∀ intent, freePaths intent after.1 =
          freePaths intent s ++ (g.foundOn (freeVisits level)).filter (g.speaks intent)) ∧
        (∀ w ∈ after.2, Tallied g w) ∧
        freeVisits after.2 = (freeVisits level).flatMap fun x =>
          (g.advance o (fun _ => false) x).filter (plain g)
  | [], s, hs, _, _ => ⟨hs, fun _ => (List.append_nil _).symm, fun _ hw => (List.not_mem_nil hw).elim,
      rfl⟩
  | v :: level, s, hs, hlevel, hplain => by
      obtain ⟨hv, hlevel⟩ := List.forall_mem_cons.mp hlevel
      rw [freeVisits_cons, List.forall_mem_append] at hplain
      obtain ⟨hrecord, hpaths⟩ := record_spec hs hv
      obtain ⟨hafter, hlater, htallied, hnext⟩ :=
        sweep_spec o stopWords hg hrecord hlevel hplain.2
      refine ⟨hafter, fun intent => ?_, ?_, ?_⟩
      · rw [freeVisits_cons, foundOn_append, List.filter_append, ← List.append_assoc,
          ← hpaths intent]
        exact hlater intent
      · refine List.forall_mem_append.mpr ⟨fun w hw => ?_, htallied⟩
        split at hw
        · exact (List.not_mem_nil hw).elim
        · exact hv.advance hg hw
      · rw [freeVisits_cons v level, List.flatMap_append, ← hnext]
        refine (freeVisits_append _ _).trans (congrArg (· ++ _) ?_)
        rw [freeVisits_singleton]
        cases hfree : Cost.free v.cost with
        | false =>
            split
            · rfl
            · exact freeVisits_advance_eq_nil hfree hv.nonneg
        | true =>
            have hstays : Cost.less (s.record g v).ceiling v.cost = false := by
              rw [(Cost.free_iff hv.nonneg).mp hfree]
              exact Cost.less_zero_eq_false hrecord.ceiling
            have hmem : plainVisit v ∈ freeVisits [v] := by
              rw [freeVisits_singleton, hfree]
              exact List.mem_singleton_self _
            rw [hstays, if_neg Bool.false_ne_true, if_pos rfl, List.flatMap_singleton]
            exact freeVisits_advance hg hfree hv.nonneg (hplain.1 _ hmem)

/-! ## The whole search -/

/-- A plain visit has been plain all the way. -/
theorem plain_of_advance {v w : Visit} (hw : w ∈ g.advance o (fun _ => false) v)
    (hplain : plain g w = true) : plain g v = true := by
  obtain ⟨e, -, matched, -, -, hback⟩ := Graph.mem_advance.mp hw
  have hnone : g.wildcardsOn w.back = 0 := eq_of_beq hplain
  rw [hback, Graph.wildcardsOn, List.countP_cons] at hnone
  exact beq_iff_eq.mpr (Nat.eq_zero_of_add_eq_zero_right hnone)

theorem filter_plain_flatMap (level : List Visit) :
    (level.flatMap (g.advance o fun _ => false)).filter (plain g) =
      (level.filter (plain g)).flatMap fun v =>
        (g.advance o (fun _ => false) v).filter (plain g) := by
  induction level with
  | nil => rfl
  | cons v level ih =>
      rw [List.flatMap_cons, List.filter_append, ih, List.filter_cons]
      split
      · rfl
      next hplain =>
        have hnone : (g.advance o (fun _ => false) v).filter (plain g) = [] :=
          List.filter_eq_nil_iff.mpr fun w hw h => hplain (plain_of_advance hw h)
        rw [hnone, List.nil_append]

theorem foundOn_filter_plain (level : List Visit) :
    g.foundOn (level.filter (plain g)) = (g.foundOn level).filter (g.wildcardsOn · == 0) := by
  have hpath : ∀ v : Visit, (g.wildcardsOn v.path == 0) = plain g v := fun v => by
    rw [plain, Visit.path, Graph.wildcardsOn, List.countP_reverse]
    rfl
  rw [Graph.foundOn, Graph.foundOn, List.filter_map, List.filter_filter, List.filter_filter]
  refine congrArg _ (List.filter_congr fun v _ => ?_)
  rw [Function.comp_apply, hpath, Bool.and_comm]

theorem exactFrom_succ (bound : Nat) (level : List Visit) :
    g.exactFrom o (fun _ => false) (bound + 1) none level =
      g.foundOn level ++ g.exactFrom o (fun _ => false) bound none
        (level.flatMap (g.advance o fun _ => false)) := by
  cases level with
  | nil => exact (Graph.exactFrom_nil bound none).symm
  | cons v level => rfl

omit [Cost.Lawful κ] in
theorem run_step (bound : Nat) (s : TolerantSearch κ) (level : List (TolerantVisit κ)) :
    run g o (usualCost o stopWords) (bound + 1) s level =
      run g o (usualCost o stopWords) bound (sweep g o (usualCost o stopWords) s level).1
        (sweep g o (usualCost o stopWords) s level).2 := by
  cases level with
  | nil => cases bound <;> rfl
  | cons v level => rfl

/-- A search finds for an intent what an exact one finds without a wildcard. -/
theorem run_spec (o : SearchOptions) (stopWords : List String) (hg : g.Valid) (bound : Nat)
    {level : List (TolerantVisit κ)} {s : TolerantSearch κ} {exact : List Visit} (hs : Orderly s)
    (hlevel : ∀ v ∈ level, Tallied g v) (hsame : freeVisits level = exact.filter (plain g)) :
    Orderly (run g o (usualCost o stopWords) bound s level) ∧
      ∀ intent, freePaths intent (run g o (usualCost o stopWords) bound s level) =
        freePaths intent s ++ ((g.exactFrom o (fun _ => false) bound none exact).filter
          (g.wildcardsOn · == 0)).filter (g.speaks intent) := by
  induction bound generalizing level s exact with
  | zero => exact ⟨hs, fun _ => (List.append_nil _).symm⟩
  | succ bound ih =>
      have hplain : ∀ x ∈ freeVisits level, plain g x = true := by
        rw [hsame]
        exact fun x hx => (List.mem_filter.mp hx).2
      obtain ⟨hafter, hpaths, htallied, hnext⟩ := sweep_spec o stopWords hg hs hlevel hplain
      rw [hsame, ← filter_plain_flatMap] at hnext
      obtain ⟨hend, hlater⟩ := ih hafter htallied hnext
      rw [run_step, exactFrom_succ]
      refine ⟨hend, fun intent => ?_⟩
      rw [hlater, hpaths, hsame, foundOn_filter_plain, List.filter_append, List.filter_append,
        List.append_assoc]

end TolerantSearch

namespace Graph

variable {κ : Type} [Cost κ] [Cost.Lawful κ] {g : Graph} {o : SearchOptions}
  {stopWords tokens : List String} {start : Nat}

theorem le_tolerantBound (g : Graph) (tokens : List String) :
    g.size * (tokens.length + 1) + 1 ≤ g.tolerantBound tokens := by
  have hmul : g.size * (tokens.length + 1) ≤ g.size * (tokens.length + 4 * g.size + 3) :=
    Nat.mul_le_mul_left _ (by omega)
  rw [tolerantBound, Nat.succ_mul]
  omega

/-- The matches of a tolerant search that cost nothing are, intent by intent, the
exact paths without a wildcard that say something. -/
theorem free_tolerantMatches (κ : Type) [Cost κ] [Cost.Lawful κ] (o : SearchOptions)
    (stopWords : List String) (hg : g.Valid) (hcycles : g.Acyclic fun e => e.isEpsilon)
    (hstart : g.start = some start) (hne : tokens ≠ []) :
    let found : TolerantMatches κ := g.tolerantMatches o (usualCost o stopWords) tokens
    found.Sorted ∧ ∀ intent, ((freeOnes (found.flatMap Prod.snd)).filter (·.intent == intent)).map
        TolerantMatch.path =
      ((g.exactPaths o tokens).filter (g.wildcardsOn · == 0)).filter (g.speaks intent) := by
  let first : TolerantVisit κ := ⟨start, tokens, [], 0, Cost.ofNat 0, none⟩
  have htallied : ∀ v ∈ [first], TolerantSearch.Tallied g v := by
    rw [List.forall_mem_singleton]
    exact ⟨.inl rfl, rfl, rfl⟩
  have hfree : TolerantSearch.freeVisits [first] =
      [⟨start, tokens, []⟩].filter (TolerantSearch.plain g) := by
    rw [TolerantSearch.freeVisits_singleton]
    exact if_pos Cost.free_zero
  have hstate : TolerantSearch.Orderly ⟨[], (Cost.ofNat g.size : κ)⟩ :=
    ⟨TolerantMatches.sorted_nil, Cost.nonneg_ofNat _⟩
  have hfound : g.tolerantMatches o (usualCost o stopWords) tokens =
      (TolerantSearch.run g o (usualCost o stopWords) (g.tolerantBound tokens)
        ⟨[], (Cost.ofNat g.size : κ)⟩ [first]).found := tolerantMatches_eq hstart hne
  have hexact : g.exactFrom o (fun _ => false) (g.tolerantBound tokens) none
      [⟨start, tokens, []⟩] = g.exactPaths o tokens := by
    have hnil : g.levels o (fun _ => false) [⟨start, tokens, []⟩]
        (g.size * (tokens.length + 1) + 1) = [] := levels_eq_nil hg hcycles (Nat.lt_succ_self _)
    rw [exactFrom_of_le hnil (le_tolerantBound g tokens), exactFrom_eq,
      exactPaths_eq_flatMap hg hcycles hstart hne]
  obtain ⟨hend, hpaths⟩ :=
    TolerantSearch.run_spec o stopWords hg (g.tolerantBound tokens) hstate htallied hfree
  rw [hexact] at hpaths
  intro found
  have hsame : found = _ := hfound
  rw [hsame]
  exact ⟨hend.sorted, fun intent => (hpaths intent).trans (List.nil_append _)⟩

omit [Cost κ] [Cost.Lawful κ] in
/-- Paths that differ within each intent, and tell it, differ. -/
theorem nodup_paths {l : List (TolerantMatch κ)}
    (hnodup : ∀ intent, ((l.filter (·.intent == intent)).map TolerantMatch.path).Nodup)
    (hintent : ∀ m ∈ l, m.intent = (g.intentsOn m.path).getLast?.getD "") :
    (l.map TolerantMatch.path).Nodup := by
  rw [List.nodup_iff_count_le_one]
  intro p
  have hone := List.nodup_iff_count_le_one.mp (hnodup ((g.intentsOn p).getLast?.getD "")) p
  rw [List.count_eq_countP, List.countP_map, List.countP_filter] at hone
  rw [List.count_eq_countP, List.countP_map]
  refine le_trans (List.countP_mono_left fun m hm hpath => ?_) hone
  have hpath : (m.path == p) = true := hpath
  rw [Function.comp_apply, hpath, hintent m hm, eq_of_beq hpath]
  exact beq_self_eq_true _

/-- A tolerant search with the usual costs agrees with an exact one on what it finds
for nothing: for every intent this is what the exact search finds for it without a
wildcard and with some word said, in that order and each path once.  And if it finds
anything for nothing, its best matches are just this. -/
theorem free_matches_eq_exactPaths (hg : g.Valid) (hcycles : g.Acyclic fun e => e.isEpsilon)
    (hstart : g.start = some start) (hne : tokens ≠ []) :
    let found : TolerantMatches Float := g.tolerantMatches o (usualCost o stopWords) tokens
    let free := (found.flatMap Prod.snd).filter fun m => m.cost == 0
    (∀ intent, (free.filter (·.intent == intent)).map TolerantMatch.path =
        (g.exactPaths o tokens).filter fun p => g.wildcardsOn p == 0 && g.speaks intent p) ∧
      (free.map TolerantMatch.path).Nodup ∧
      ((found.map Prod.fst).Pairwise (· < ·) ∧ ∀ q ∈ found, ∀ m ∈ q.2, m.intent = q.1) ∧
      (free ≠ [] → found.best = free) := by
  intro found free
  obtain ⟨hsorted, hpaths⟩ := free_tolerantMatches Float o stopWords hg hcycles hstart hne
  have hlist : ∀ intent, (free.filter (·.intent == intent)).map TolerantMatch.path =
      (g.exactPaths o tokens).filter fun p => g.wildcardsOn p == 0 && g.speaks intent p :=
    fun intent => by
      refine (hpaths intent).trans ?_
      rw [List.filter_filter]
      exact List.filter_congr fun p _ => Bool.and_comm _ _
  refine ⟨hlist, ?_, ⟨hsorted.ascends, fun q hq => (hsorted.kept q hq).intent_eq⟩,
    hsorted.best_eq⟩
  refine nodup_paths (g := g) (fun intent => ?_) fun m hm => ?_
  · rw [hlist]
    exact (pairwise_exactPaths hg hcycles hstart hne).1.filter _
  · have hmem : m.path ∈ (free.filter (·.intent == m.intent)).map TolerantMatch.path :=
      List.mem_map_of_mem (List.mem_filter.mpr ⟨hm, beq_self_eq_true _⟩)
    rw [hlist] at hmem
    obtain ⟨-, hspeaks⟩ := (Bool.and_eq_true _ _).mp (List.mem_filter.mp hmem).2
    exact (eq_of_beq ((Bool.and_eq_true _ _).mp hspeaks).2).symm

end Graph

/-- `go now` for one intent, and for the other any word before `now`. -/
def leaveGraph : Graph :=
  ((((((({} : Graph).addState.addState.addState.addState.addState.setStart 0).setFinal 4).addEdge
    0 1 "" "__label__Any").addEdge 1 2 "*" "*").addEdge 2 4 "now" "now").addEdge
    0 3 "" "__label__Go").addEdge 3 2 "go" "go"

theorem valid_leaveGraph : leaveGraph.Valid := by
  have hstates : (({} : Graph).addState.addState.addState.addState.addState).Valid :=
    ((((Graph.valid_empty.addState none).addState none).addState none).addState none).addState none
  have hends :
      ((({} : Graph).addState.addState.addState.addState.addState.setStart 0).setFinal 4).Valid :=
    hstates.congr (fun _ => rfl) rfl
  exact ((((hends.addEdge (by decide) 1 _ _).addEdge (by decide) 2 _ _).addEdge (by decide) 4 _
    _).addEdge (by decide) 3 _ _).addEdge (by decide) 2 _ _

theorem acyclic_leaveGraph : leaveGraph.Acyclic fun e => e.isEpsilon :=
  valid_leaveGraph.acyclic (by decide)

/-- Both intents are found, and the one without a wildcard is the best. -/
theorem free_matches_leaveGraph :
    let found : TolerantMatches Float :=
      leaveGraph.tolerantMatches {} (usualCost {} ["the"]) ["go", "now"]
    let free := (found.flatMap Prod.snd).filter fun m => m.cost == 0
    leaveGraph.exactPaths {} ["go", "now"] =
        [[⟨0, 1, []⟩, ⟨1, 2, ["go"]⟩, ⟨2, 4, ["now"]⟩],
          [⟨0, 3, []⟩, ⟨3, 2, ["go"]⟩, ⟨2, 4, ["now"]⟩]] ∧
      (free.filter (·.intent == "Go")).map TolerantMatch.path =
        [[⟨0, 3, []⟩, ⟨3, 2, ["go"]⟩, ⟨2, 4, ["now"]⟩]] ∧
      found.best = free := by
  intro found free
  have hpaths : leaveGraph.exactPaths {} ["go", "now"] =
      [[⟨0, 1, []⟩, ⟨1, 2, ["go"]⟩, ⟨2, 4, ["now"]⟩],
        [⟨0, 3, []⟩, ⟨3, 2, ["go"]⟩, ⟨2, 4, ["now"]⟩]] := by decide
  obtain ⟨hfree, -, -, hbest⟩ := Graph.free_matches_eq_exactPaths (o := {}) (g := leaveGraph)
    valid_leaveGraph acyclic_leaveGraph (show leaveGraph.start = some 0 from rfl)
    (List.cons_ne_nil "go" ["now"])
  have hgo : (free.filter (·.intent == "Go")).map TolerantMatch.path =
      [[⟨0, 3, []⟩, ⟨3, 2, ["go"]⟩, ⟨2, 4, ["now"]⟩]] := by
    refine (hfree "Go").trans ?_
    rw [hpaths]
    decide
  refine ⟨hpaths, hgo, hbest fun hnil => ?_⟩
  have hnone : (free.filter (·.intent == "Go")).map TolerantMatch.path = [] := by
    rw [show free = [] from hnil]
    rfl
  rw [hgo] at hnone
  cases hnone

end Utterance
