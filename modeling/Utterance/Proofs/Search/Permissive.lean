import Utterance.Proofs.Compile.Acceptance
import Utterance.Proofs.Decimal.Monotone
import Utterance.Proofs.Search.Best
import Utterance.Proofs.Search.Enumeration
import Utterance.Proofs.Search.Free

/-!
# What a tolerant search finds of an exact one

A path that an exact search finds is open to a tolerant one, at a tenth for every wildcard
on it and whatever the stop words are (`Follows.affords`).  Until something is found the
ceiling stays at the number of states.  Added up in floating point tenths round, but their
sum only grows (`Cost.less_tenths`), so a path that ends no higher than the ceiling has been
no higher on the way, and it is not given up before something is found (`Affords.finds`).

In a compiled graph the path is short enough.  So if it says more words than it costs, and
costs no more than there are states, then a tolerant search finds something
(`exists_tolerantMatch_of_mem_exactPaths`).  Both conditions are needed
(`no_tolerantMatch_of_wildcards`).
-/

namespace Utterance

/-- The usual rule lets an edge hear what it hears exactly, for nothing unless it
is a wildcard's. -/
theorem Edge.Hears.usualCost_eq {κ : Type} [Cost κ] {o : SearchOptions} {e : Edge}
    {matched : List String} (h : e.Hears o matched) (stopWords left : List String) :
    usualCost o stopWords e.input (matched ++ left) =
      some ⟨if e.input = wildcard then (Cost.tenth : κ) else Cost.ofNat 0, matched.length,
        matched⟩ := by
  rcases h.2 with ⟨hinput, rfl⟩ | ⟨hinput, token, rfl, hsame⟩
  · have hne : e.input ≠ wildcard := hinput ▸ by decide
    rw [if_neg hne, hinput]
    rfl
  · have hempty : e.input.isEmpty = false := by simpa using hinput
    unfold usualCost
    rw [hempty]
    by_cases hwild : e.input = wildcard
    · rw [hwild]
      rfl
    · have hsame : o.same e.input token = true := beq_iff_eq.mpr (hsame.resolve_left hwild)
      rw [if_neg hwild]
      simp [hwild, scanTokens, hsame]

/-! ## Searches that find something -/

section

variable {κ : Type} [Cost κ]

theorem exists_mem_keepCheapest (m : TolerantMatch κ) (kept : List (TolerantMatch κ)) :
    ∃ n, n ∈ keepCheapest m kept := by
  cases kept with
  | nil => exact ⟨m, List.mem_singleton_self m⟩
  | cons first rest =>
      rw [keepCheapest]
      split
      · exact ⟨first, List.mem_cons_self⟩
      · split
        · exact ⟨first, List.mem_cons_self⟩
        · exact ⟨m, List.mem_singleton_self m⟩

theorem TolerantMatches.exists_mem_add (m : TolerantMatch κ) :
    ∀ ms : TolerantMatches κ, ∃ q ∈ ms.add m, ∃ n, n ∈ q.2
  | [] => ⟨_, List.mem_cons_self, m, List.mem_cons_self⟩
  | (intent, kept) :: rest => by
      rw [add]
      split
      · exact ⟨_, List.mem_cons_self, m, List.mem_cons_self⟩
      · split
        · exact ⟨_, List.mem_cons_self, exists_mem_keepCheapest m kept⟩
        · obtain ⟨q, hq, hn⟩ := exists_mem_add m rest
          exact ⟨q, List.mem_cons_of_mem _ hq, hn⟩

namespace TolerantSearch

variable {g : Graph} {o : SearchOptions} {rule : CostRule κ} {s : TolerantSearch κ}
  {v w : TolerantVisit κ} {level : List (TolerantVisit κ)}

/-- Something has been found. -/
def Finds (s : TolerantSearch κ) : Prop := ∃ q ∈ s.found, ∃ m, m ∈ q.2

/-- The visit is at the end of a path that says more words than it costs. -/
def counts (g : Graph) (v : TolerantVisit κ) : Bool :=
  g.isFinal v.state && Cost.less v.cost (Cost.ofNat v.said)

theorem finds_record (h : counts g v = true) : (s.record g v).Finds := by
  have hcounts : (g.isFinal v.state && Cost.less v.cost (Cost.ofNat v.said)) = true := h
  unfold record
  rw [if_pos hcounts]
  exact TolerantMatches.exists_mem_add _ _

theorem record_eq_self (h : counts g v = false) : s.record g v = s := by
  have hcounts : (g.isFinal v.state && Cost.less v.cost (Cost.ofNat v.said)) = false := h
  unfold record
  rw [if_neg (Bool.eq_false_iff.mp hcounts)]

/-! What has been found is never lost. -/

theorem Finds.record (hs : s.Finds) (v : TolerantVisit κ) : (s.record g v).Finds := by
  cases h : counts g v with
  | true => exact finds_record h
  | false => rwa [record_eq_self h]

theorem Finds.sweep (hs : s.Finds) (level : List (TolerantVisit κ)) :
    (sweep g o rule s level).1.Finds := by
  induction level generalizing s with
  | nil => exact hs
  | cons v level ih => exact ih (hs.record v)

theorem Finds.run (hs : s.Finds) (bound : Nat) (level : List (TolerantVisit κ)) :
    (run g o rule bound s level).Finds := by
  induction bound generalizing s level with
  | zero => exact hs
  | succ bound ih =>
      rw [run_succ]
      exact ih (hs.sweep level) _

/-- A level finds something unless none of its visits counts.  Then the search stays as it is,
and all visits go on that cost no more than the ceiling. -/
theorem finds_or_sweep_eq (o : SearchOptions) (rule : CostRule κ) (s : TolerantSearch κ)
    (level : List (TolerantVisit κ)) :
    (sweep g o rule s level).1.Finds ∨
      (sweep g o rule s level).1 = s ∧ ∀ v ∈ level, counts g v = false ∧
        (Cost.less s.ceiling v.cost = false →
          ∀ w ∈ advance g o rule v, w ∈ (sweep g o rule s level).2) := by
  induction level generalizing s with
  | nil => exact .inr ⟨rfl, fun _ hv => (List.not_mem_nil hv).elim⟩
  | cons v level ih =>
      have hfst : (sweep g o rule s (v :: level)).1 = (sweep g o rule (s.record g v) level).1 := rfl
      have hsnd : (sweep g o rule s (v :: level)).2 =
          (if Cost.less (s.record g v).ceiling v.cost then [] else advance g o rule v) ++
            (sweep g o rule (s.record g v) level).2 := rfl
      cases hcounts : counts g v with
      | true => exact .inl (hfst ▸ (finds_record hcounts).sweep level)
      | false =>
          rw [record_eq_self hcounts] at hfst hsnd
          rw [hfst, hsnd]
          refine (ih s).imp_right fun ⟨hsame, hlevel⟩ => ⟨hsame, List.forall_mem_cons.mpr ⟨?_, ?_⟩⟩
          · refine ⟨hcounts, fun hless w hw => List.mem_append_left _ ?_⟩
            rwa [hless, if_neg Bool.false_ne_true]
          · exact fun u hu => (hlevel u hu).imp_right fun hnext hless w hw =>
              List.mem_append_right _ (hnext hless w hw)

/-- So many steps lead from one visit to the other, and no visit that is left by one of them
costs more than the ceiling. -/
inductive Affords (g : Graph) (o : SearchOptions) (rule : CostRule κ) (ceiling : κ) :
    Nat → TolerantVisit κ → TolerantVisit κ → Prop where
  | refl (v : TolerantVisit κ) : Affords g o rule ceiling 0 v v
  | head {k : Nat} {u v w : TolerantVisit κ} :
      Cost.less ceiling u.cost = false → v ∈ advance g o rule u →
      Affords g o rule ceiling k v w → Affords g o rule ceiling (k + 1) u w

/-- If a visit that counts is within reach under the ceiling, something is found: until then
the ceiling stays where it is, so the way to the visit stays open. -/
theorem Affords.finds {ceiling : κ} {k : Nat} (h : Affords g o rule ceiling k v w)
    (hw : counts g w = true) :
    ∀ {bound : Nat} {s : TolerantSearch κ} {level : List (TolerantVisit κ)},
      s.ceiling = ceiling → k < bound → v ∈ level → (run g o rule bound s level).Finds := by
  induction h with
  | refl v =>
      intro bound s level _ hbound hv
      obtain ⟨bound, rfl⟩ := Nat.exists_eq_succ_of_ne_zero (Nat.ne_of_gt hbound)
      rw [run_succ]
      rcases finds_or_sweep_eq o rule s level with hfinds | ⟨-, hlevel⟩
      · exact hfinds.run bound _
      · rw [(hlevel v hv).1] at hw
        cases hw
  | head hless hnext _ ih =>
      intro bound s level hceiling hbound hu
      obtain ⟨bound, rfl⟩ := Nat.exists_eq_succ_of_ne_zero (Nat.ne_of_gt (Nat.zero_lt_of_lt hbound))
      rw [run_succ]
      rcases finds_or_sweep_eq o rule s level with hfinds | ⟨hsame, hlevel⟩
      · exact hfinds.run bound _
      · have hgoes := (hlevel _ hu).2 (hceiling ▸ hless) _ hnext
        rw [hsame]
        exact ih hw hceiling (Nat.lt_of_succ_lt_succ hbound) hgoes

/-- If a property goes on from visit to visit and no visit that has it counts, a search that
begins with such visits finds nothing. -/
theorem run_eq_self {P : TolerantVisit κ → Prop}
    (hP : ∀ {v w}, P v → w ∈ advance g o rule v → P w)
    (hcounts : ∀ {v}, P v → counts g v = false) (bound : Nat) (hlevel : ∀ v ∈ level, P v) :
    run g o rule bound s level = s := by
  have hsweep : ∀ {level : List (TolerantVisit κ)}, (∀ v ∈ level, P v) →
      (sweep g o rule s level).1 = s := by
    intro level hlevel
    induction level with
    | nil => rfl
    | cons v level ih =>
        obtain ⟨hv, hlevel⟩ := List.forall_mem_cons.mp hlevel
        have hfst : (sweep g o rule s (v :: level)).1 =
            (sweep g o rule (s.record g v) level).1 := rfl
        rw [hfst, record_eq_self (hcounts hv)]
        exact ih hlevel
  induction bound generalizing level with
  | zero => rfl
  | succ bound ih =>
      rw [run_succ, hsweep hlevel]
      refine ih fun w hw => ?_
      obtain ⟨v, hv, hw⟩ := List.mem_flatMap.mp ((sweep_snd_sublist s level).subset hw)
      exact hP (hlevel v hv) hw

end TolerantSearch

end

/-! ## Sums of tenths -/

namespace Cost

/-- So many tenths, added up one by one. -/
def tenths {κ : Type} [Cost κ] : Nat → κ
  | 0 => Cost.ofNat 0
  | n + 1 => Cost.add (tenths n) Cost.tenth

theorem nonneg_tenths (n : Nat) : Nonneg (tenths n : Float) := by
  induction n with
  | zero => exact nonneg_ofNat 0
  | succ n ih => exact ih.add (.inr Lawful.tenth)

theorem add_zero_of_nonneg {x : Float} (hx : Nonneg x) : Cost.add x (Cost.ofNat 0) = x := by
  rcases hx with rfl | hx
  · exact Lawful.zero
  · exact Decimal.Positive.add_zero hx

/-- The sum of some tenths is less than nothing that the sum of fewer is not less than. -/
theorem less_tenths {c : Float} (hc : Nonneg c) {m n : Nat} (hle : m ≤ n)
    (h : Cost.less c (tenths m) = true) : Cost.less c (tenths n) = true := by
  induction n, hle using Nat.le_induction with
  | base => exact h
  | succ n _ ih =>
      have hlt : c < tenths n := of_decide_eq_true ih
      rcases nonneg_tenths n with hzero | hpos
      · rw [hzero, less_zero_eq_false hc] at ih
        cases ih
      · exact decide_eq_true (Decimal.Positive.lt_add hpos hc (.inr Decimal.positive_tenth) hlt)

end Cost

namespace Graph

variable {g : Graph} {o : SearchOptions} {stopWords tokens : List String}

/-- How many wildcards there are on a path. -/
def wildcardsOn (g : Graph) (p : Path) : Nat :=
  p.countP fun s => (g.edge? s.source s.target).any (·.input == wildcard)

theorem wildcardsOn_cons {a b : Nat} {e : Edge} (he : g.edge? a b = some e)
    (matched : List String) (p : Path) : g.wildcardsOn (⟨a, b, matched⟩ :: p) =
      g.wildcardsOn p + if e.input = wildcard then 1 else 0 := by
  rw [wildcardsOn, List.countP_cons, he, Option.any_some]
  simp only [beq_iff_eq, wildcardsOn]

theorem saidOn_cons {a b : Nat} {e : Edge} (he : g.edge? a b = some e) (matched : List String)
    (p : Path) : g.saidOn (⟨a, b, matched⟩ :: p) = g.saidOn p + if e.says then 1 else 0 := by
  rw [saidOn, List.countP_cons, he, Option.any_some]
  rfl

/-- A path on which the tokens in front are heard is within reach under a ceiling that is no
less than a tenth for each of its wildcards. -/
theorem Follows.affords (hg : g.Valid) {ceiling : Float} (hceiling : Cost.Nonneg ceiling)
    (stopWords : List String) {a b : Nat} {p : Path} (hp : g.Follows (Edge.Hears o) a p b) :
    ∀ (back : Path) (left : List String) (said n : Nat) (intent : Option String),
      Cost.less ceiling (Cost.tenths (n + g.wildcardsOn p)) = false →
      ∃ entered, TolerantSearch.Affords g o (usualCost o stopWords) ceiling p.length
        ⟨a, p.tokens ++ left, back, said, Cost.tenths n, intent⟩
        ⟨b, left, p.reverse ++ back, said + g.saidOn p, Cost.tenths (n + g.wildcardsOn p),
          entered⟩ := by
  induction hp with
  | nil a =>
      intro _ _ _ _ intent _
      exact ⟨intent, .refl _⟩
  | @cons a b c e matched p he hhears _ ih =>
      intro back left said n intent hless
      have htokens : Path.tokens (⟨a, b, matched⟩ :: p) ++ left = matched ++ (p.tokens ++ left) :=
        List.append_assoc ..
      have hback : (⟨a, b, matched⟩ :: p : Path).reverse ++ back =
          p.reverse ++ ⟨a, b, matched⟩ :: back := by
        rw [List.reverse_cons, List.append_assoc]
        rfl
      have hsaid : said + g.saidOn (⟨a, b, matched⟩ :: p) =
          (if e.output.isEmpty || Label.isControl e.output then said else said + 1) +
            g.saidOn p := by
        rw [saidOn_cons he, Edge.says]
        cases e.output.isEmpty || Label.isControl e.output
        · exact (Nat.add_right_comm said 1 _).symm
        · rfl
      have hwildcards : n + g.wildcardsOn (⟨a, b, matched⟩ :: p) =
          (n + if e.input = wildcard then 1 else 0) + g.wildcardsOn p := by
        rw [wildcardsOn_cons he]
        omega
      have hcost : Cost.add (Cost.tenths n : Float)
          (if e.input = wildcard then Cost.tenth else Cost.ofNat 0) =
          Cost.tenths (n + if e.input = wildcard then 1 else 0) := by
        split
        · rfl
        · exact Cost.add_zero_of_nonneg (Cost.nonneg_tenths n)
      -- the sum has been no higher before
      have hturn : Cost.less ceiling (Cost.tenths n) = false :=
        Bool.eq_false_iff.mpr fun h => Bool.eq_false_iff.mp hless
          (Cost.less_tenths hceiling (Nat.le_add_right n _) h)
      rw [hwildcards] at hless
      obtain ⟨entered, hrest⟩ := ih (⟨a, b, matched⟩ :: back) left _ _
        ((Label.intent? e.output).or intent) hless
      refine ⟨entered, ?_⟩
      rw [htokens, hback, hsaid, hwildcards]
      refine .head hturn ?_ hrest
      have hmem : e ∈ g.permitted o a :=
        List.mem_filter.mpr ⟨hg.mem_edgesFrom.mpr ((hg.of_edge? he).2.symm ▸ he),
          SearchOptions.permits_iff.mpr hhears.1⟩
      refine List.mem_filterMap.mpr ⟨e, hmem, ?_⟩
      rw [TolerantSearch.cross?, hhears.usualCost_eq, Option.map_some, List.drop_left, hcost,
        (hg.of_edge? he).2]

/-- If an exact search finds a path in a compiled graph, and the sum of a tenth for every
wildcard on it is less than the number of words said on it and no more than the number of
states, then a tolerant search finds something. -/
theorem exists_tolerantMatch_of_mem_exactPaths {l : IntentSentences} {t : Table}
    {c : CompileOptions} (hg : Graph.ofSentences l t c = .ok g) {p : Path}
    (hp : p ∈ g.exactPaths o tokens)
    (hsaid : Cost.tenths (g.wildcardsOn p) < Float.ofNat (g.saidOn p))
    (hsize : ¬ Float.ofNat g.size < Cost.tenths (g.wildcardsOn p)) :
    let found : TolerantMatches Float := g.tolerantMatches o (usualCost o stopWords) tokens
    ∃ q ∈ found, ∃ m, m ∈ q.2 := by
  obtain ⟨_, _, E⟩ := ofSentences_extends hg
  have hvalid := E.ascending.valid
  have hcycles := E.ascending.acyclic
  have hstart := start_ofSentences hg
  have hne : tokens ≠ [] := by
    rintro rfl
    unfold exactPaths at hp
    rw [hstart] at hp
    exact (List.not_mem_nil hp).elim
  obtain ⟨⟨start, final, hstart', hfinal, hfollows⟩, rfl⟩ :=
    (mem_exactPaths_iff_run hvalid hcycles hstart hne).mp hp
  have hlength : p.length < g.tolerantBound p.tokens := by
    have hle := hfollows.length_le hcycles Edge.Hears.silent_or
    calc p.length ≤ g.size * (p.tokens.length + 1) := hle
      _ ≤ (g.size + 1) * (p.tokens.length + 1) := Nat.mul_le_mul_right _ (Nat.le_succ _)
      _ < g.tolerantBound p.tokens := Nat.mul_lt_mul_of_pos_left (by omega) (Nat.succ_pos _)
  have hless : Cost.less (Cost.ofNat g.size) (Cost.tenths (0 + g.wildcardsOn p) : Float) = false := by
    rw [Nat.zero_add]
    exact decide_eq_false hsize
  obtain ⟨entered, hreach⟩ :=
    hfollows.affords hvalid (Cost.nonneg_ofNat g.size) stopWords [] [] 0 0 none hless
  rw [List.append_nil, Nat.zero_add, Nat.zero_add] at hreach
  have hcounts : TolerantSearch.counts g (⟨final, [], p.reverse ++ [], g.saidOn p,
      Cost.tenths (g.wildcardsOn p), entered⟩ : TolerantVisit Float) = true := by
    have hstate : g.isFinal final = true := by
      rw [isFinal, hfinal]
      exact beq_self_eq_true _
    have hwords : Cost.less (Cost.tenths (g.wildcardsOn p)) (Cost.ofNat (g.saidOn p) : Float) =
        true := decide_eq_true hsaid
    rw [TolerantSearch.counts, hstate, hwords]
    rfl
  rw [tolerantMatches_eq hstart' hne]
  exact hreach.finds hcounts rfl hlength (List.mem_singleton_self _)

end Graph

/-- `* stop`: any words, and then one that ends them. -/
def noteSentence : Sentence := ⟨"* stop", [.plain "*", .plain "stop"]⟩

def noteGraph : Graph where
  nodes := #[⟨none, #[0]⟩, ⟨none, #[1, 2]⟩, ⟨some "*", #[3]⟩, ⟨some "stop", #[4]⟩, ⟨none, #[]⟩]
  edges := #[{ source := 0, target := 1, output := "__label__Note" },
    { source := 1, target := 1, input := "*", output := "*" },
    { source := 1, target := 2, input := "*", output := "*" },
    { source := 2, target := 3, input := "stop", output := "stop" },
    { source := 3, target := 4 }]
  start := some 0
  final := some 4

theorem ofSentences_noteSentence :
    Graph.ofSentences [("Note", [noteSentence])] [] = .ok noteGraph := by
  have hunfold : noteSentence.unfold [] "Note" =
      .seq .group [.word "*" {} none, .word "stop" {} none] {} none := by
    simp [Sentence.unfold, Sentence.toExpr, noteSentence, unfold, unfoldAll, Expr.plain]
  exact (ofSentences_singleton hunfold).trans rfl

/-- The words before the last one, all the same, and the one that ends them. -/
def noteTokens (count : Nat) : List String := List.replicate count "la" ++ ["la", "stop"]

def notePath (count : Nat) : Path :=
  ⟨0, 1, []⟩ :: List.replicate count ⟨1, 1, ["la"]⟩ ++
    [⟨1, 2, ["la"]⟩, ⟨2, 3, ["stop"]⟩, ⟨3, 4, []⟩]

/-- Three words cost three tenths, and the path says four. -/
theorem exists_tolerantMatch_noteGraph :
    let found : TolerantMatches Float :=
      noteGraph.tolerantMatches {} (usualCost {} []) (noteTokens 2)
    notePath 2 ∈ noteGraph.exactPaths {} (noteTokens 2) ∧
      Cost.tenths (noteGraph.wildcardsOn (notePath 2)) <
        Float.ofNat (noteGraph.saidOn (notePath 2)) ∧
      ¬ Float.ofNat noteGraph.size < Cost.tenths (noteGraph.wildcardsOn (notePath 2)) ∧
      ∃ q ∈ found, ∃ m, m ∈ q.2 := by
  have hpath : notePath 2 ∈ noteGraph.exactPaths {} (noteTokens 2) := by decide
  have hsaid : (Cost.tenths (noteGraph.wildcardsOn (notePath 2)) : Float) <
      Float.ofNat (noteGraph.saidOn (notePath 2)) := by decide
  have hsize : ¬ Float.ofNat noteGraph.size <
      Cost.tenths (noteGraph.wildcardsOn (notePath 2)) := by decide
  exact ⟨hpath, hsaid, hsize,
    Graph.exists_tolerantMatch_of_mem_exactPaths ofSentences_noteSentence hpath hsaid hsize⟩

/-- `(* * * * * * * * * * *):x`: eleven words, in whose place one is said. -/
def humSentence : Sentence :=
  ⟨"(* * * * * * * * * * *):x",
    [.seq .group "* * * * * * * * * * *" (List.replicate 11 (.plain "*"))
      { substitution := some ["x"] } none]⟩

def humGraph : Graph where
  nodes := #[⟨none, #[0]⟩, ⟨none, #[1, 2]⟩] ++
    ((List.range 10).map fun i => (⟨some "*", #[2 * i + 3, 2 * i + 4]⟩ : GraphNode)).toArray ++
    #[⟨some "*", #[23]⟩, ⟨none, #[24]⟩, ⟨none, #[]⟩]
  edges := #[{ source := 0, target := 1, output := "__label__Hum" }] ++
    ((List.range 11).flatMap fun i =>
      [({ source := i + 1, target := i + 1, input := "*", output := "*" } : Edge),
        { source := i + 1, target := i + 2, input := "*" }]).toArray ++
    #[{ source := 12, target := 13, output := "x" }, { source := 13, target := 14 }]
  start := some 0
  final := some 14

theorem ofSentences_humSentence :
    Graph.ofSentences [("Hum", [humSentence])] [] = .ok humGraph := by
  have hunfold : humSentence.unfold [] "Hum" =
      .seq .group [.seq .group (List.replicate 11 (.word "*" {} none))
        { substitution := some ["x"] } none] {} none := by
    simp [Sentence.unfold, Sentence.toExpr, humSentence, unfold, unfoldAll, Expr.plain]
  exact (ofSentences_singleton hunfold).trans rfl

theorem valid_humGraph : humGraph.Valid := (ascending_ofSentences ofSentences_humSentence).valid

theorem acyclic_humGraph : humGraph.Acyclic fun e => e.isEpsilon :=
  (ascending_ofSentences ofSentences_humSentence).acyclic

/-- On every edge of the graph this goes up by one if a wildcard is heard, and down
by one if a word is said. -/
def humHeight (s : Nat) : Nat := if s ≤ 12 then s - 1 else 10

/-- The visit has heard as many wildcards as it costs tenths, and it has said as many words
less as its state is high. -/
def HumVisit (v : TolerantVisit Float) : Prop :=
  ∃ n, v.cost = Cost.tenths n ∧ n + v.rest.length = 11 ∧ v.said + humHeight v.state = n

theorem HumVisit.advance {v w : TolerantVisit Float} (hv : HumVisit v)
    (hw : w ∈ TolerantSearch.advance humGraph {} (usualCost {} []) v) : HumVisit w := by
  obtain ⟨n, hcost, hrest, hsaid⟩ := hv
  obtain ⟨e, he, h, hh, rfl⟩ := TolerantSearch.of_mem_advance hw
  have hedge := valid_humGraph.mem_edgesFrom.mp (List.mem_filter.mp he).1
  obtain ⟨i, -, hi⟩ := Option.bind_eq_some_iff.mp hedge
  have hmem : e ∈ humGraph.edges := Array.mem_of_getElem? hi
  have hinputs : ∀ e ∈ humGraph.edges, e.input = "" ∨ e.input = wildcard := by decide
  have hheight : ∀ e ∈ humGraph.edges, (if e.says then 1 else 0) + humHeight e.target =
      (if e.input = wildcard then 1 else 0) + humHeight e.source := by decide
  have hwords : (if e.says then v.said + 1 else v.said) + humHeight e.target =
      n + if e.input = wildcard then 1 else 0 := by
    have hstep := hheight e hmem
    rw [(valid_humGraph.of_edge? hedge).1] at hstep
    cases hword : e.says <;> simp only [hword, if_true, if_false, Bool.false_eq_true] at hstep ⊢ <;>
      omega
  rcases hinputs e hmem with hinput | hinput
  · have hne : e.input ≠ wildcard := hinput ▸ by decide
    rw [if_neg hne] at hwords
    rw [hinput] at hh
    cases hh
    refine ⟨n, ?_, hrest, hwords⟩
    rw [hcost]
    exact Cost.add_zero_of_nonneg (Cost.nonneg_tenths n)
  · rw [if_pos hinput] at hwords
    rw [hinput] at hh
    obtain ⟨state, rest, back, said, cost, intent⟩ := v
    cases rest with
    | nil => cases hh
    | cons token later =>
        cases hh
        refine ⟨n + 1, congrArg (Cost.add · Cost.tenth) hcost, ?_, hwords⟩
        rw [← hrest]
        exact Nat.add_right_comm n 1 _

/-- At the end ten words were heard and nothing is said, or eleven and one is. -/
theorem HumVisit.counts_eq_false {v : TolerantVisit Float} (hv : HumVisit v) :
    TolerantSearch.counts humGraph v = false := by
  obtain ⟨n, hcost, hrest, hsaid⟩ := hv
  unfold TolerantSearch.counts
  rw [hcost, Bool.and_eq_false_imp]
  intro hfinal
  have hstate : v.state = 14 := (Option.some.inj (eq_of_beq hfinal)).symm
  rw [hstate, show humHeight 14 = 10 from rfl] at hsaid
  obtain ⟨hnone, rfl⟩ | ⟨hone, rfl⟩ : v.said = 0 ∧ n = 10 ∨ v.said = 1 ∧ n = 11 := by omega
  · rw [hnone]
    exact Cost.less_zero_eq_false (Cost.nonneg_tenths 10)
  · rw [hone]
    decide +kernel

theorem tolerantMatches_humGraph : (humGraph.tolerantMatches {} (usualCost {} [])
    (List.replicate 11 "la") : TolerantMatches Float) = [] := by
  have hstart : humGraph.start = some 0 := rfl
  have hfirst : ∀ v ∈ [(⟨0, List.replicate 11 "la", [], 0, Cost.ofNat 0, none⟩ :
      TolerantVisit Float)], HumVisit v := List.forall_mem_singleton.mpr ⟨0, rfl, rfl, rfl⟩
  rw [Graph.tolerantMatches_eq hstart (by decide),
    TolerantSearch.run_eq_self HumVisit.advance HumVisit.counts_eq_false _ hfirst]

/-- The path from one of the wildcards on. -/
def humPathFrom (s count : Nat) : Path :=
  (List.range' s count).map (fun i => ⟨i + 1, i + 2, ["la"]⟩) ++ [⟨12, 13, []⟩, ⟨13, 14, []⟩]

def humPath : Path := ⟨0, 1, []⟩ :: humPathFrom 0 11

theorem follows_humPathFrom : ∀ {count s : Nat}, s + count = 11 →
    humGraph.Follows (Edge.Hears {}) (s + 1) (humPathFrom s count) 14
  | 0, s, hs => by
      obtain rfl : s = 11 := hs
      have hsays : humGraph.edge? 12 13 = some { source := 12, target := 13, output := "x" } := rfl
      have hends : humGraph.edge? 13 14 = some { source := 13, target := 14 } := rfl
      exact .cons hsays (Edge.hears_nil rfl rfl) (.cons hends (Edge.hears_nil rfl rfl) (.nil 14))
  | count + 1, s, hs => by
      have hedges : ∀ i < 11, (humGraph.edge? (i + 1) (i + 2)).any
          (fun e => e.input == wildcard && e.output == "") = true := by decide
      obtain ⟨e, he, hhears⟩ := (Option.any_eq_true _ _).mp (hedges s (by omega))
      obtain ⟨hinput, houtput⟩ := (Bool.and_eq_true _ _).mp hhears
      have hinput : e.input = wildcard := eq_of_beq hinput
      have houtput : e.output = "" := eq_of_beq houtput
      have hlabel : Label.intent? e.output = none := houtput ▸ rfl
      refine .cons he (Edge.hears_wildcard hlabel hinput "la") ?_
      exact follows_humPathFrom (by omega)

theorem mem_exactPaths_humPath : humPath ∈ humGraph.exactPaths {} (List.replicate 11 "la") := by
  have hfirst : humGraph.edge? 0 1 = some { source := 0, target := 1, output := "__label__Hum" } :=
    rfl
  rw [Graph.mem_exactPaths_iff_run valid_humGraph acyclic_humGraph rfl (by decide)]
  exact ⟨⟨0, 14, rfl, rfl, .cons hfirst ⟨fun _ _ => rfl, .inl ⟨rfl, rfl⟩⟩
    (follows_humPathFrom rfl)⟩, rfl⟩

/-- Eleven wildcards cost more than the one word said on the path.  Fifty-one cost
more than the number of states, so the path is given up before its end. -/
theorem no_tolerantMatch_of_wildcards :
    (Graph.ofSentences [("Hum", [humSentence])] [] = .ok humGraph ∧
        humPath ∈ humGraph.exactPaths {} (List.replicate 11 "la") ∧ 0 < humGraph.saidOn humPath ∧
        (humGraph.tolerantMatches {} (usualCost {} []) (List.replicate 11 "la") :
          TolerantMatches Float) = []) ∧
      (Graph.ofSentences [("Note", [noteSentence])] [] = .ok noteGraph ∧
        notePath 50 ∈ noteGraph.exactPaths {} (noteTokens 50) ∧
        0 < noteGraph.saidOn (notePath 50) ∧
        (noteGraph.tolerantMatches {} (usualCost {} []) (noteTokens 50) :
          TolerantMatches Float) = []) := by
  refine ⟨⟨ofSentences_humSentence, mem_exactPaths_humPath, ?_, tolerantMatches_humGraph⟩,
    ofSentences_noteSentence, ?_, ?_, List.isEmpty_iff.mp ?_⟩
  · decide +kernel
  · decide +kernel
  · decide +kernel
  · decide +kernel

end Utterance
