import Utterance.Proofs.Recognition.StopWords
import Utterance.Proofs.Search.Permissive

/-!
# What one token too many costs

A token that no edge hears is put somewhere into tokens that a path hears exactly.  On
its way through the graph a tolerant search can only pass over it in front of a later
token, or leave it at the end (`Passes.charged`).  So every path that counts costs what is
charged for the token, or one if it comes last, and the path that hears the other
tokens costs no more than that (`Follows.passes_over`).

Whether this path still counts is a matter of how much it says: one word makes up for a
stop word and for a token that is left over, and two for any token that is passed over
(`bestCost_insertIdx`).
-/

namespace Utterance

/-! ## What is charged for a token -/

/-- What is charged for passing over a token. -/
def charge (o : SearchOptions) (stopWords : List String) (token : String) : ℚ :=
  if stopWords.contains (o.transform token) then 1 / 10 else 1

section

variable {o : SearchOptions} {stopWords : List String}

theorem charge_of_mem {token : String} (h : o.transform token ∈ stopWords) :
    charge o stopWords token = 1 / 10 :=
  if_pos (List.contains_iff_mem.mpr h)

theorem charge_of_not_mem {token : String} (h : o.transform token ∉ stopWords) :
    charge o stopWords token = 1 :=
  if_neg fun hcontains => h (List.contains_iff_mem.mp hcontains)

theorem charge_pos (token : String) : 0 < charge o stopWords token := by
  unfold charge
  split <;> norm_num

theorem charge_le_one (token : String) : charge o stopWords token ≤ 1 := by
  unfold charge
  split <;> norm_num

theorem skippedCost_cons (cost : ℚ) (token : String) (skipped : List String) :
    skippedCost (fun t => stopWords.contains (o.transform t)) cost (token :: skipped) =
      skippedCost (fun t => stopWords.contains (o.transform t)) (cost + charge o stopWords token)
        skipped := by
  rw [skippedCost, skippedCost, List.foldl_cons, charge]
  split <;> simp

theorem le_skippedCost (skipped : List String) (cost : ℚ) :
    cost ≤ skippedCost (fun t => stopWords.contains (o.transform t)) cost skipped := by
  induction skipped generalizing cost with
  | nil => exact le_refl _
  | cons token skipped ih =>
      rw [skippedCost_cons]
      exact (le_add_of_nonneg_right (charge_pos token).le).trans (ih _)

/-- Whoever passes over tokens is charged for each of them. -/
theorem charge_le_skippedCost {token : String} {skipped : List String} (h : token ∈ skipped)
    {cost : ℚ} (hcost : 0 ≤ cost) : charge o stopWords token ≤
      skippedCost (fun t => stopWords.contains (o.transform t)) cost skipped := by
  induction skipped generalizing cost with
  | nil => exact (List.not_mem_nil h).elim
  | cons first skipped ih =>
      rw [skippedCost_cons]
      rcases List.mem_cons.mp h with rfl | h
      · exact (le_add_of_nonneg_left hcost).trans (le_skippedCost skipped _)
      · exact ih h (add_nonneg hcost (charge_pos first).le)

end

namespace Graph

variable {g : Graph} {o : SearchOptions} {stopWords tokens before after : List String}
  {x : String} {start : Nat}

/-- No edge hears the token. -/
def Deaf (g : Graph) (o : SearchOptions) (x : String) : Prop :=
  g.Inputs fun word => word ≠ "" → o.same word x = false

theorem Deaf.ne {word token : String} (hdeaf : word ≠ "" → o.same word x = false)
    (hword : word ≠ "") (hsame : o.same word token = true) : token ≠ x := by
  rintro rfl
  exact absurd hsame (Bool.eq_false_iff.mp (hdeaf hword))

/-! ## Every path is charged -/

section

variable (hwild : g.Inputs (· ≠ wildcard)) (hdeaf : g.Deaf o x)

include hwild hdeaf

/-- The token is still in front, or it has been charged for and another one was heard
after it. -/
theorem Passes.charged {p : Path} {a : Nat} {rest : List String} {cost : ℚ}
    (hp : g.Passes o stopWords start (before ++ x :: after) p a rest cost) :
    0 ≤ cost ∧
      ((∃ ahead, rest = ahead ++ x :: after) ∨ (after ≠ [] ∧ charge o stopWords x ≤ cost)) := by
  induction hp with
  | start => exact ⟨le_refl _, .inl ⟨before, rfl⟩⟩
  | @step p a b rest cost e h _ he _ hh ih =>
      obtain ⟨hcost, ih⟩ := ih
      have hstep : 0 ≤ h.cost := usualCost_nonneg hh
      refine ⟨add_nonneg hcost hstep, ?_⟩
      rcases ih with ⟨ahead, rfl⟩ | ⟨hafter, hcharged⟩
      swap
      · exact .inr ⟨hafter, hcharged.trans (le_add_of_nonneg_right hstep)⟩
      by_cases hinput : e.input = ""
      · rw [hinput] at hh
        cases hh
        exact .inl ⟨ahead, rfl⟩
      rw [usualCost_eq_scanTokens hinput (hwild.of_edge? he), scanTokens_eq_some_iff] at hh
      obtain ⟨skipped, token, later, hsplit, -, hsame, rfl⟩ := hh
      have hne := Deaf.ne (hdeaf.of_edge? he) hinput hsame
      have hlater : (ahead ++ x :: after).drop (0 + skipped.length + 1) = later := by
        rw [hsplit, Nat.zero_add, ← List.drop_drop, List.drop_left, List.drop_one, List.tail_cons]
      rw [hlater]
      rcases List.append_eq_append_iff.mp hsplit with ⟨between, rfl, hx⟩ | ⟨between, rfl, hx⟩
      · -- the scan goes beyond the token, unless it ends at it
        cases between with
        | nil => exact absurd (List.cons.inj hx).1.symm hne
        | cons first between =>
            obtain ⟨rfl, rfl⟩ := List.cons.inj hx
            refine .inr ⟨by simp, ?_⟩
            exact (charge_le_skippedCost (by simp) (le_refl _)).trans (le_add_of_nonneg_left hcost)
      · cases between with
        | nil => exact absurd (List.cons.inj hx).1 hne
        | cons first between => exact .inl ⟨between, (List.cons.inj hx).2⟩

/-- A path that counts costs one, or what is charged for the token if another one was
heard after it. -/
theorem Arrives.charged {m : TolerantMatch ℚ}
    (hm : g.Arrives o stopWords (before ++ x :: after) m) :
    1 ≤ m.cost ∨ (after ≠ [] ∧ charge o stopWords x ≤ m.cost) := by
  obtain ⟨start, final, rest, cost, -, -, hp, -, hcost, -⟩ := hm
  obtain ⟨hnonneg, hrest⟩ := hp.charged hwild hdeaf
  rw [hcost]
  rcases hrest with ⟨ahead, rfl⟩ | ⟨hafter, hcharged⟩
  · have hlength : (1 : ℚ) ≤ (ahead ++ x :: after).length := by
      rw [List.length_append, List.length_cons]
      exact_mod_cast Nat.le_add_left 1 (ahead.length + after.length)
    exact .inl (hlength.trans (le_add_of_nonneg_left hnonneg))
  · exact .inr ⟨hafter, hcharged.trans (le_add_of_nonneg_right (Nat.cast_nonneg _))⟩

/-! ## The path that hears the other tokens -/

omit hdeaf in
/-- What an edge hears in front costs nothing. -/
theorem Passes.hear {q : Path} {a b : Nat} {e : Edge} {matched left rest : List String} {cost : ℚ}
    (hq : g.Passes o stopWords start tokens q a rest cost) (hrest : rest = matched ++ left)
    (he : g.edge? a b = some e) (hhears : e.Hears o matched) :
    g.Passes o stopWords start tokens (q ++ [⟨a, b, matched⟩]) b left cost := by
  subst hrest
  have hstep := hq.step he (SearchOptions.permits_iff.mpr hhears.1)
    (hhears.usualCost_eq stopWords left)
  rwa [List.drop_left, if_neg (hwild.of_edge? he), Cost.ofNat_rat, Nat.cast_zero, add_zero]
    at hstep

omit hdeaf in
/-- A path on which the tokens in front are heard is passed for nothing. -/
theorem Follows.passes {a b : Nat} {p : Path} (hp : g.Follows (Edge.Hears o) a p b) :
    ∀ {q : Path} {left : List String} {cost : ℚ},
      g.Passes o stopWords start tokens q a (p.tokens ++ left) cost →
      g.Passes o stopWords start tokens (q ++ p) b left cost := by
  induction hp with
  | nil a =>
      intro q left cost hq
      rwa [List.append_nil]
  | cons he hhears _ ih =>
      intro q left cost hq
      rw [List.append_cons]
      exact ih (hq.hear hwild (List.append_assoc ..) he hhears)

/-- A path on which the tokens in front are heard passes over one that stands before a
later one of them, and is charged for it. -/
theorem Follows.passes_over {a b : Nat} {p : Path} (hp : g.Follows (Edge.Hears o) a p b) :
    ∀ {q : Path} {before later : List String} {token : String} {cost : ℚ},
      p.tokens = before ++ token :: later →
      g.Passes o stopWords start tokens q a (before ++ x :: token :: later) cost →
      g.Passes o stopWords start tokens (q ++ p) b [] (cost + charge o stopWords x) := by
  induction hp with
  | nil a =>
      intro q before later token cost htokens _
      cases before <;> cases htokens
  | @cons a b c e matched p he hhears hfollows ih =>
      intro q before later token cost htokens hq
      have hheard : matched ++ p.tokens = before ++ token :: later := htokens
      rw [List.append_cons]
      rcases hhears.2 with ⟨-, rfl⟩ | ⟨hinput, heard, rfl, hword⟩
      · exact ih hheard (hq.hear hwild rfl he hhears)
      cases before with
      | cons first before =>
          obtain ⟨rfl, hrest⟩ := List.cons.inj hheard
          exact ih hrest (hq.hear hwild rfl he hhears)
      | nil =>
          -- the token behind the one that no edge hears
          obtain ⟨rfl, rfl⟩ := List.cons.inj hheard
          have hsame : o.same e.input heard = true :=
            beq_iff_eq.mpr (hword.resolve_left (hwild.of_edge? he))
          have hscan : usualCost o stopWords e.input (x :: heard :: p.tokens) =
              some ⟨charge o stopWords x, 2, [heard]⟩ := by
            rw [usualCost_eq_scanTokens hinput (hwild.of_edge? he), scanTokens_eq_some_iff]
            refine ⟨[x], heard, p.tokens, rfl, ?_, hsame, ?_⟩
            · exact List.forall_mem_singleton.mpr (hdeaf.of_edge? he hinput)
            · rw [skippedCost_cons, Cost.ofNat_rat, Nat.cast_zero, zero_add]
              rfl
          have hstep : g.Passes o stopWords start tokens (q ++ [⟨a, b, [heard]⟩]) b
              (p.tokens ++ []) (cost + charge o stopWords x) := by
            rw [List.append_nil]
            exact hq.step he (SearchOptions.permits_iff.mpr hhears.1) hscan
          exact hfollows.passes hwild hstep

end

/-! ## The best cost -/

/-- A token put in after all of `before`. -/
theorem insertIdx_length (before : List String) :
    (before ++ after).insertIdx before.length x = before ++ x :: after := by
  induction before with
  | nil => rfl
  | cons first before ih => exact congrArg (first :: ·) ih

/-- What the best matches cost, of which there is one. -/
def BestCost (g : Graph) (o : SearchOptions) (stopWords tokens : List String) (cost : ℚ) : Prop :=
  (g.usualMatches o stopWords tokens).best ≠ [] ∧
    ∀ m ∈ (g.usualMatches o stopWords tokens).best, m.cost = cost

/-- If a path counts and none is cheaper, the best cost is that of the path. -/
theorem bestCost_of_arrives (hg : g.Valid) (hcycles : g.Acyclic fun _ => True)
    (hne : tokens ≠ []) {m : TolerantMatch ℚ} (hm : g.Arrives o stopWords tokens m)
    (hleast : ∀ n, g.Arrives o stopWords tokens n → m.cost ≤ n.cost) :
    g.BestCost o stopWords tokens m.cost := by
  obtain ⟨start, _, _, _, hstart, -⟩ := id hm
  have hbest : ∀ n, n ∈ (g.usualMatches o stopWords tokens).best ↔
      g.Arrives o stopWords tokens n ∧ ∀ k, g.Arrives o stopWords tokens k → n.cost ≤ k.cost :=
    fun n => (tabulates_usualMatches hstart hne).mem_best.trans
      (least_recorded_iff hg hcycles hstart)
  refine ⟨List.ne_nil_of_mem ((hbest m).mpr ⟨hm, hleast⟩), fun n hn => ?_⟩
  obtain ⟨hn, hleast'⟩ := (hbest n).mp hn
  exact le_antisymm (hleast' m hm) (hleast n hn)

theorem Acyclic.mono {P Q : Edge → Prop} (h : g.Acyclic P) (hPQ : ∀ e, Q e → P e) :
    g.Acyclic Q := by
  intro s hs
  have hle : g.Joins Q ≤ g.Joins P := by
    rintro a b ⟨e, he, hQ⟩
    exact ⟨e, he, hPQ e hQ⟩
  exact h s (Relation.TransGen.mono hle s s hs)

/-- Without cycles, what an exact search finds are runs. -/
theorem run_of_mem_exactPaths (hg : g.Valid) (hcycles : g.Acyclic fun _ => True) {p : Path}
    (hp : p ∈ g.exactPaths o tokens) : g.Run o tokens p := by
  cases hstart : g.start with
  | none => simp [exactPaths, hstart] at hp
  | some start =>
      have hne : tokens ≠ [] := by
        rintro rfl
        simp [exactPaths, hstart] at hp
      exact (mem_exactPaths_iff_run hg (hcycles.mono fun _ _ => trivial) hstart hne).mp hp

section

variable (hg : g.Valid) (hcycles : g.Acyclic fun _ => True) (hwild : g.Inputs (· ≠ wildcard))
  (hdeaf : g.Deaf o x)

include hg hcycles hwild hdeaf

/-- Behind all the tokens that a path hears, the token is left over. -/
theorem bestCost_concat {p : Path} (hp : g.Run o before p) (hsaid : 1 ≤ g.saidOn p) :
    g.BestCost o stopWords (before ++ [x]) 1 := by
  obtain ⟨⟨start, final, hstart, hfinal, hfollows⟩, rfl⟩ := hp
  have hpasses : g.Passes o stopWords start (p.tokens ++ [x]) p final [x] 0 :=
    hfollows.passes hwild .start
  have hcounts : (0 : ℚ) < g.saidOn p := Nat.cast_pos.mpr hsaid
  have harrives : g.Arrives o stopWords (p.tokens ++ [x])
      ⟨(g.intentsOn p).getLast?.getD "", p, 1⟩ :=
    ⟨start, final, [x], 0, hstart, hfinal, hpasses, hcounts, by simp, rfl⟩
  refine bestCost_of_arrives hg hcycles (by simp) harrives fun n hn => ?_
  exact (hn.charged hwild hdeaf).resolve_right fun h => h.1 rfl

/-- In front of a token that a path hears, the token is passed over. -/
theorem bestCost_between {p : Path} {token : String} {later : List String}
    (hp : g.Run o (before ++ token :: later) p) (hsaid : charge o stopWords x < g.saidOn p) :
    g.BestCost o stopWords (before ++ x :: token :: later) (charge o stopWords x) := by
  obtain ⟨⟨start, final, hstart, hfinal, hfollows⟩, htokens⟩ := hp
  have hpasses : g.Passes o stopWords start (before ++ x :: token :: later) ([] ++ p) final []
      (0 + charge o stopWords x) := hfollows.passes_over hwild hdeaf htokens .start
  rw [zero_add, List.nil_append] at hpasses
  have harrives : g.Arrives o stopWords (before ++ x :: token :: later)
      ⟨(g.intentsOn p).getLast?.getD "", p, charge o stopWords x⟩ :=
    ⟨start, final, [], _, hstart, hfinal, hpasses, hsaid, by simp, rfl⟩
  refine bestCost_of_arrives hg hcycles (by simp) harrives fun n hn => ?_
  rcases hn.charged hwild hdeaf with hn | ⟨-, hn⟩
  · exact (charge_le_one x).trans hn
  · exact hn

end

/-- A path hears the tokens exactly and says a word at least, the graph has no cycles and
no wildcards, and no edge hears `x`.  Then the best cost of the tokens with `x` put in at
the place `i` is a tenth if `x` is a stop word and something follows it.  It is one if
nothing follows, and also if `x` is no stop word, something follows and the path says two
words. -/
theorem bestCost_insertIdx (hg : g.Valid) (hcycles : g.Acyclic fun _ => True)
    (hwild : g.Inputs (· ≠ wildcard)) {p : Path} (hp : p ∈ g.exactPaths o tokens)
    (hsaid : 1 ≤ g.saidOn p) (hdeaf : g.Deaf o x) {i : Nat} (hi : i ≤ tokens.length) :
    (o.transform x ∈ stopWords → i < tokens.length →
        g.BestCost o stopWords (tokens.insertIdx i x) (1 / 10)) ∧
      (i = tokens.length → g.BestCost o stopWords (tokens.insertIdx i x) 1) ∧
      (o.transform x ∉ stopWords → i < tokens.length → 2 ≤ g.saidOn p →
        g.BestCost o stopWords (tokens.insertIdx i x) 1) := by
  have hrun : g.Run o tokens p := run_of_mem_exactPaths hg hcycles hp
  obtain ⟨before, after, rfl, rfl⟩ :
      ∃ before after, tokens = before ++ after ∧ before.length = i :=
    ⟨tokens.take i, tokens.drop i, (List.take_append_drop i _).symm, List.length_take_of_le hi⟩
  rw [insertIdx_length before]
  cases after with
  | nil =>
      rw [List.append_nil] at hrun ⊢
      exact ⟨fun _ h => absurd h (lt_irrefl _),
        fun _ => bestCost_concat hg hcycles hwild hdeaf hrun hsaid,
        fun _ h => absurd h (lt_irrefl _)⟩
  | cons token later =>
      have hbetween : charge o stopWords x < g.saidOn p →
          g.BestCost o stopWords (before ++ x :: token :: later) (charge o stopWords x) :=
        bestCost_between hg hcycles hwild hdeaf hrun
      refine ⟨fun hstop _ => ?_, fun h => ?_, fun hstop _ hmore => ?_⟩
      · have hcast : (1 : ℚ) ≤ g.saidOn p := by exact_mod_cast hsaid
        rw [charge_of_mem hstop] at hbetween
        exact hbetween (lt_of_lt_of_le (by norm_num) hcast)
      · simp at h
      · have hcast : (2 : ℚ) ≤ g.saidOn p := by exact_mod_cast hmore
        rw [charge_of_not_mem hstop] at hbetween
        exact hbetween (lt_of_lt_of_le (by norm_num) hcast)

end Graph

/-- A stop word and another one between the two words of a sentence, and a stop word behind
them. -/
theorem bestCost_please :
    lightGraph.BestCost {} ["please"] ["dim", "please", "light"] (1 / 10) ∧
      lightGraph.BestCost {} ["please"] ["dim", "light", "please"] 1 ∧
      lightGraph.BestCost {} [] ["dim", "please", "light"] 1 := by
  have hcycles : lightGraph.Acyclic fun _ => True :=
    valid_lightGraph.acyclic (by decide)
  have hwild : lightGraph.Inputs (· ≠ wildcard) := by
    unfold Graph.Inputs
    decide
  have hdeaf : lightGraph.Deaf {} "please" := by
    unfold Graph.Deaf Graph.Inputs
    decide
  have hp : ([⟨0, 1, []⟩, ⟨1, 2, ["dim"]⟩, ⟨2, 4, ["light"]⟩] : Path) ∈
      lightGraph.exactPaths {} ["dim", "light"] := by decide
  have hsaid : 2 ≤ lightGraph.saidOn [⟨0, 1, []⟩, ⟨1, 2, ["dim"]⟩, ⟨2, 4, ["light"]⟩] := by
    decide
  refine ⟨?_, ?_, ?_⟩
  · exact (Graph.bestCost_insertIdx valid_lightGraph hcycles hwild hp (Nat.le_of_succ_le hsaid)
      hdeaf (show 1 ≤ 2 by decide)).1 (by decide) (by decide)
  · exact (Graph.bestCost_insertIdx valid_lightGraph hcycles hwild hp (Nat.le_of_succ_le hsaid)
      hdeaf (show 2 ≤ 2 by decide)).2.1 rfl
  · exact (Graph.bestCost_insertIdx valid_lightGraph hcycles hwild hp (Nat.le_of_succ_le hsaid)
      hdeaf (show 1 ≤ 2 by decide)).2.2 (by decide) (by decide) hsaid

end Utterance
