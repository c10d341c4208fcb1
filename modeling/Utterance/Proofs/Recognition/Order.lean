import Utterance.Proofs.Recognition.Transcript

/-!
# Raw tokens and the path

At a step of a path its matches are heard, or else the word of the state that it leads
to (`Graph.heardAt`).  The raw tokens of a recognition are what the transcript of the path
takes down (`Graph.rawTokens_eq`), for any graph.

In a compiled graph a step that opens or closes something hears nothing, and nothing
that is heard is left out before converting (`Graph.heardIn_counted`).  So the raw
tokens follow the path, as long as no converter has a matched word beside one that is
passed over and nothing overtakes what waits for a converter to close
(`rawTokens_of_found`).
-/

namespace Utterance

open Utterance.Graph

/-! ## Marks that steer -/

/-- A mark that steers hears nothing. -/
def Mark.SteersSilently (m : Mark) : Prop := m.control? = none ∨ m.input = ""

theorem steersSilently_saidMarks (labels : List String) :
    ∀ m ∈ saidMarks labels, m.SteersSilently := by
  intro m hm
  obtain ⟨label, -, hm⟩ := List.mem_flatMap.mp hm
  exact Mark.eq_of_mem_spelled hm ▸ .inr rfl

theorem steersSilently_wordMarks {text : String} (h : Label.isControl text = false)
    (hidden : Bool) : ∀ m ∈ wordMarks hidden text, m.SteersSilently := by
  have hcontrol : Mark.control? ⟨text, if hidden then "" else Label.pack text⟩ = none := by
    cases hidden with
    | true => exact Mark.control?_silent
    | false =>
        exact (Mark.control?_of_sayable (Label.sayable_of_not_isControl h) text).trans
          (Control.read?_of_not_isControl h)
  have hnone : (wordMarks hidden text).filterMap Mark.control? = [] := by
    rw [wordMarks, filterMap_control?_spelled, hcontrol]
    rfl
  exact fun m hm => .inl (List.filterMap_eq_nil_iff.mp hnone m hm)

/-- Where no word looks like a mark, nothing that steers is heard. -/
theorem compositional_steersSilently :
    Compositional Head.Plain fun ms => ∀ m ∈ ms, m.SteersSilently where
  nil _ hm := (List.not_mem_nil hm).elim
  append hl hm := List.forall_mem_append.mpr ⟨hl, hm⟩
  enclose _ _ _ hms := List.forall_mem_append.mpr
    ⟨List.forall_mem_append.mpr ⟨steersSilently_saidMarks _, hms⟩, steersSilently_saidMarks _⟩
  word h := steersSilently_wordMarks (h _ (List.mem_append_left _ (by simp)))
  source _ := steersSilently_saidMarks _

/-- Marks of a compiled graph that steer hear nothing. -/
theorem steersSilently_of_mem_languageOfIntents {l : IntentSentences} {t : Table} {expand : Bool}
    (hplain : PlainTemplates l t) {ms : List Mark} (hms : ms ∈ languageOfIntents t expand l) :
    ∀ m ∈ ms, m.SteersSilently := by
  obtain ⟨intent, rest, rfl, hrest⟩ :=
    compositional_steersSilently.of_mem_languageOfIntents hplain hms
  exact List.forall_mem_cons.mpr ⟨.inr rfl, hrest⟩

/-! ## Steps -/

namespace Graph

/-- What is heard at a step: its matches, or else the word of the state that it leads to. -/
def heardAt (g : Graph) (s : PathStep) : List String :=
  if s.matched.isEmpty then (g.word? s.target).toList.filter (!·.isEmpty) else s.matched

/-- What is heard along a path. -/
def heard (g : Graph) (p : Path) : List String := p.flatMap g.heardAt

/-- The emissions of a path that are converted. -/
def counted (g : Graph) (p : Path) : List Emission :=
  (p.map g.emissionAt).filter Emission.counts

/-- The transcript of a path. -/
def transcript (g : Graph) (p : Path) : Transcript := Transcript.run {} (g.counted p)

/-- Nothing on the path that waits for a converter to close is overtaken. -/
def InTurn (g : Graph) (p : Path) : Prop := Transcript.InTurn {} (g.counted p)

instance (g : Graph) (p : Path) : Decidable (g.InTurn p) :=
  inferInstanceAs (Decidable (Transcript.InTurn _ _))

theorem heard_emissionAt (g : Graph) (s : PathStep) :
    (g.emissionAt s).part.heard = g.heardAt s := by
  rw [Part.heard, heardAt, Emission.part, emissionAt]
  cases hmatched : s.matched.isEmpty with
  | false => rfl
  | true =>
      cases g.word? s.target with
      | none => rfl
      | some word => by_cases hempty : word = "" <;> simp [hempty]

/-- The raw tokens are what the transcript takes down, whatever the graph is. -/
theorem rawTokens_eq {g : Graph} {cs : Converters} {p : Path} {cost : Option Float}
    {r : Recognition} (h : g.interpret cs p cost = .ok r) :
    r.rawTokens = (g.transcript p).taken.flatMap heardTogether ∧ (g.transcript p).waiting = [] := by
  obtain ⟨parts, hparts, hr⟩ := interpret_spans h
  obtain ⟨es, hes, hparts⟩ := Except.bind_eq_ok.mp hparts
  obtain rfl := emissions_eq_ok hes
  obtain ⟨l, hl, hwaiting, hheard⟩ := Transcript.tracks_empty.heardIn_eq hparts
  refine ⟨?_, hwaiting⟩
  rw [hr.rawTokens_eq, hheard, transcript, counted, hl]
  rfl

/-- The edge has a mark that, if it steers, hears nothing; where it says what it hears,
that is no mark and not empty. -/
structure Hears (g : Graph) (s : PathStep) (e : Edge) : Prop where
  edge : g.edge? s.source s.target = some e
  takes : e.Takes s.matched
  steers : s.source < s.target → e.mark.SteersSilently
  plain : e.output = wildcard → ∀ token ∈ s.matched, Label.isControl token = false
  nonempty : "" ∉ s.matched

namespace Hears

variable {g : Graph} {s : PathStep} {e : Edge}

theorem raw_eq (h : g.Hears s e) (hg : g.Ascending) (hlt : s.source < s.target) :
    (g.emissionAt s).raw = e.input := hg.heard (mark?_of_edge? h.edge) hlt

/-- Where a wildcard is said, its match is. -/
theorem label_of_wildcard (h : g.Hears s e) (hwild : e.output = wildcard) :
    (g.emissionAt s).label = spaced s.matched ∧ Label.isControl (spaced s.matched) = false := by
  have hplain : Label.isControl (spaced s.matched) = false := by
    rcases h.takes with hmatched | ⟨-, token, hmatched⟩
    · rw [hmatched]
      decide
    · have htoken := h.plain hwild token (hmatched ▸ List.mem_cons_self)
      rw [hmatched]
      exact htoken
  refine ⟨?_, hplain⟩
  rw [emissionAt, label?, h.edge, Option.bind_some, Edge.spoken_of_eq hwild,
    Label.unpack?_of_not_packed (Label.not_mark_of_not_isControl hplain)]
  rfl

theorem lt_or_wildcard (h : g.Hears s e) (hg : g.Ascending) :
    s.source < s.target ∨ e.output = wildcard :=
  (hg.lt_or_loop (mark?_of_edge? h.edge)).imp_right fun h => congrArg Mark.output h.2

/-- A step that opens or closes something hears nothing. -/
theorem steersSilently (h : g.Hears s e) (hg : g.Ascending) :
    (g.emissionAt s).SteersSilently := by
  intro hsome
  by_cases hwild : e.output = wildcard
  · obtain ⟨hlabel, hplain⟩ := h.label_of_wildcard hwild
    rw [hlabel, Control.read?_of_not_isControl hplain] at hsome
    cases hsome
  · have hlt := (h.lt_or_wildcard hg).resolve_right hwild
    have hlabel : g.label? s = e.mark.label? := by
      rw [label?, h.edge, Option.bind_some, Edge.spoken_of_ne hwild]
      rfl
    have hinput : e.input = "" := by
      refine (h.steers hlt).resolve_left fun hnone => ?_
      have hread : Control.read? (g.emissionAt s).label = none := by
        rw [Mark.control?, ← hlabel] at hnone
        rw [emissionAt]
        cases hl : g.label? s with
        | none => exact (by decide : Control.read? "" = none)
        | some label =>
            rw [hl] at hnone
            exact hnone
      rw [hread] at hsome
      cases hsome
    have hmatched : s.matched = [] := h.takes.resolve_right fun htakes => htakes.1 hinput
    have hraw : (g.emissionAt s).raw = "" := (h.raw_eq hg hlt).trans hinput
    change Part.heard ⟨_, _, s.matched⟩ = []
    rw [hraw, hmatched]
    rfl

/-- Where a word is always matched, nothing is heard at a step without a match. -/
theorem raw_eq_empty (h : g.Hears s e) (hg : g.Ascending) (hwords : e.input ≠ "" → s.matched ≠ [])
    (hmatched : s.matched = []) : (g.emissionAt s).raw = "" := by
  have hinput : e.input = "" := by
    by_contra hne
    exact hwords hne hmatched
  rcases hg.lt_or_loop (mark?_of_edge? h.edge) with hlt | ⟨-, hloop⟩
  · exact (h.raw_eq hg hlt).trans hinput
  · have hwild : e.input = wildcard := congrArg Mark.input hloop
    rw [hinput] at hwild
    exact absurd hwild (by decide)

/-- What is left out before converting hears nothing. -/
theorem heardAt_of_not_counts (h : g.Hears s e) (hg : g.Ascending)
    (hcounts : (g.emissionAt s).counts = false) : g.heardAt s = [] := by
  rw [← heard_emissionAt]
  cases hintent : (g.emissionAt s).intent? with
  | some name =>
      have hlabel : (g.emissionAt s).label = (Control.intent name).text :=
        Label.intent?_eq_some.mp hintent
      exact h.steersSilently hg (by rw [hlabel, Control.read?_text]; rfl)
  | none =>
      rw [Emission.counts, hintent] at hcounts
      have hempty : (g.emissionAt s).raw = "" ∧ (g.emissionAt s).label = "" := by
        simpa using hcounts
      have hmatched : s.matched = [] := by
        refine h.takes.resolve_right ?_
        rintro ⟨hinput, token, htoken⟩
        rcases h.lt_or_wildcard hg with hlt | hwild
        · exact hinput ((h.raw_eq hg hlt).symm.trans hempty.1)
        · have hlabel := (h.label_of_wildcard hwild).1
          rw [htoken, hempty.2] at hlabel
          have hnone := h.nonempty
          rw [htoken, show token = "" from hlabel.symm] at hnone
          exact hnone List.mem_cons_self
      change Part.heard ⟨_, _, s.matched⟩ = []
      rw [hempty.1, hmatched]
      rfl

end Hears

section

variable {l : IntentSentences} {t : Table} {o : CompileOptions} {g : Graph} {p : Path}

/-- The steps of a path through a compiled graph. -/
theorem Crosses.hears (hplain : PlainTemplates l t) (hg : Graph.ofSentences l t o = .ok g)
    (hp : g.Crosses Edge.Takes p) (hplainly : g.HearsPlainly p)
    (hnonempty : ∀ s ∈ p, "" ∉ s.matched) : ∀ s ∈ p, ∃ e, g.Hears s e := by
  obtain ⟨hmem, final, hfollows⟩ := hp.spelled_mem hg
  have hsteers := steersSilently_of_mem_languageOfIntents hplain hmem
  intro s hs
  obtain ⟨e, he, htakes, hmark⟩ := hfollows.exists_spelled (ascending_ofSentences hg) s hs
  refine ⟨e, he, htakes, fun hlt => ?_, hplainly s hs e he, hnonempty s hs⟩
  rcases hmark hlt with hsilent | hspelled
  · rw [hsilent]
    exact .inl Mark.control?_silent
  · exact hsteers _ hspelled

variable (hg : g.Ascending) (hp : ∀ s ∈ p, ∃ e, g.Hears s e)
include hg hp

theorem steersSilently_counted : ∀ e ∈ g.counted p, e.SteersSilently := by
  intro e he
  obtain ⟨s, hs, rfl⟩ := List.mem_map.mp (List.mem_filter.mp he).1
  obtain ⟨edge, hhears⟩ := hp s hs
  exact hhears.steersSilently hg

/-- Before converting, everything that is heard along the path is there. -/
theorem heardIn_counted : heardIn ((g.counted p).map Emission.part) = g.heard p := by
  induction p with
  | nil => rfl
  | cons s p ih =>
      obtain ⟨⟨edge, hs⟩, hrest⟩ := List.forall_mem_cons.mp hp
      have ih := ih hrest
      have hcons : g.heard (s :: p) = g.heardAt s ++ g.heard p := List.flatMap_cons
      rw [counted, List.map_cons]
      cases hcounts : (g.emissionAt s).counts with
      | true =>
          rw [List.filter_cons_of_pos hcounts, List.map_cons, heardIn_cons, heard_emissionAt, hcons]
          exact congrArg _ ih
      | false =>
          rw [List.filter_cons_of_neg (by rw [hcounts]; exact Bool.false_ne_true), hcons,
            hs.heardAt_of_not_counts hg hcounts]
          exact ih

/-- If in each group either all words are matched or none is, then the raw tokens are what is
heard along the path, in another order only if something is overtaken. -/
theorem rawTokens_of_hears {cs : Converters} {cost : Option Float} {r : Recognition}
    (h : g.interpret cs p cost = .ok r) (huniform : ∀ l ∈ (g.transcript p).taken, Uniform l) :
    r.rawTokens.Perm (g.heard p) ∧ (g.InTurn p → r.rawTokens = g.heard p) ∧
      ((g.heard p).Nodup → r.rawTokens = g.heard p → g.InTurn p) := by
  obtain ⟨hraw, hwaiting⟩ := rawTokens_eq h
  have hsteers := steersSilently_counted hg hp
  have hcounted := heardIn_counted hg hp
  have hheard : (g.transcript p).heard = r.rawTokens := by
    rw [Transcript.heard, hwaiting, heardIn_nil, List.append_nil, hraw, Transcript.heardIn_flatten]
    exact (List.flatMap_congr fun l hl => (huniform l hl).heardTogether_eq).symm
  have hempty : Transcript.heard {} = [] := rfl
  refine ⟨?_, fun hturn => ?_, fun hnodup heq => ?_⟩
  · have hperm := Transcript.heard_run_perm (s := {}) hsteers
    rwa [hempty, hcounted, List.nil_append, ← transcript, hheard] at hperm
  · have hrun := Transcript.heard_run (s := {}) hsteers hturn
    rwa [hempty, hcounted, List.nil_append, ← transcript, hheard] at hrun
  · refine Transcript.inTurn_of_heard_run hsteers ?_ ?_
    · rwa [hempty, hcounted, List.nil_append]
    · rw [hempty, hcounted, List.nil_append, ← transcript, hheard, heq]

end

/-- Without optional words an edge that hears a word matches a token. -/
theorem matched_ne_nil_of_hear? {o : SearchOptions} {e : Edge} {rest matched left : List String}
    (h : e.hear? o (fun _ => false) rest = some (matched, left)) (hinput : e.input ≠ "") :
    matched ≠ [] := by
  unfold Edge.hear? at h
  split at h
  next hepsilon => exact absurd (String.isEmpty_iff.mp hepsilon) hinput
  next =>
    cases rest with
    | nil => cases h
    | cons token later =>
        simp only [Bool.false_eq_true, if_false] at h
        split at h
        · cases h
          exact List.cons_ne_nil _ _
        · cases h

theorem words_of_mem_exactPaths {g : Graph} (hg : g.Valid) {o : SearchOptions}
    {tokens : List String} {limit : Option Nat} {p : Path}
    (hp : p ∈ g.exactPaths o tokens (fun _ => false) limit) :
    p.tokens = tokens ∧ ∀ s ∈ p, ∀ e, g.edge? s.source s.target = some e → e.input ≠ "" →
      s.matched ≠ [] := by
  obtain ⟨_, _, -, -, hfollows, htokens⟩ :=
    follows_of_mem_exactPaths (R := fun e matched => e.input ≠ "" → matched ≠ []) hg
      (fun _ hhear => matched_ne_nil_of_hear? hhear) hp
  refine ⟨htokens, fun s hs e he => ?_⟩
  obtain ⟨e', he', hwords⟩ := hfollows.exists_edge s hs
  obtain rfl : e = e' := Option.some.inj (he.symm.trans he')
  exact hwords

section

variable {g : Graph} {p : Path} (hg : g.Ascending) (hp : ∀ s ∈ p, ∃ e, g.Hears s e)
  (hwords : ∀ s ∈ p, ∀ e, g.edge? s.source s.target = some e → e.input ≠ "" → s.matched ≠ [])
include hg hp hwords

/-- Where every word is matched, the matches are heard. -/
theorem heard_eq_tokens : g.heard p = p.tokens := by
  refine List.flatMap_congr fun s hs => ?_
  obtain ⟨e, hhears⟩ := hp s hs
  rw [← heard_emissionAt]
  by_cases hmatched : s.matched = []
  · have hraw := hhears.raw_eq_empty hg (hwords s hs e hhears.edge) hmatched
    change Part.heard ⟨_, _, s.matched⟩ = s.matched
    rw [hraw, hmatched]
    rfl
  · change Part.heard ⟨_, _, s.matched⟩ = s.matched
    simp [Part.heard, hmatched]

theorem uniform_of_words : ∀ l ∈ (g.transcript p).taken, Uniform l := by
  intro l hl
  refine .inl ?_
  refine Transcript.forall_taken_run (P := fun q => q.raw ≠ "" → q.matched ≠ [])
    (fun _ h => (List.not_mem_nil h).elim) (fun _ h => (List.not_mem_nil h).elim)
    (fun e he => ?_) l hl
  obtain ⟨s, hs, rfl⟩ := List.mem_map.mp (List.mem_filter.mp he).1
  obtain ⟨edge, hhears⟩ := hp s hs
  exact fun hraw hmatched => hraw (hhears.raw_eq_empty hg (hwords s hs edge hhears.edge) hmatched)

end

end Graph

/-- The raw tokens of a recognition are what its path's transcript takes down.  If in each
converter either all words are matched or none is, these are the words that are heard along
the path; they are in the order of the path if nothing that waits for a converter to close is
overtaken, and where no word is heard twice, only then.  A path that matches the whole input
hears the tokens of the input. -/
theorem rawTokens_of_found {l : IntentSentences} {t : Table} {o : CompileOptions} {g : Graph}
    (hplain : PlainTemplates l t) (hg : Graph.ofSentences l t o = .ok g) {p : Path}
    (hp : g.Found p) (hplainly : g.HearsPlainly p) (hnonempty : ∀ s ∈ p, "" ∉ s.matched)
    {cs : Converters} {cost : Option Float} {r : Recognition}
    (h : g.interpret cs p cost = .ok r) :
    r.rawTokens = (g.transcript p).taken.flatMap heardTogether ∧
      ((∀ l ∈ (g.transcript p).taken, Uniform l) →
        r.rawTokens.Perm (g.heard p) ∧ (g.InTurn p → r.rawTokens = g.heard p) ∧
          ((g.heard p).Nodup → r.rawTokens = g.heard p → g.InTurn p)) ∧
      ∀ (so : SearchOptions) (tokens : List String) (limit : Option Nat),
        p ∈ g.exactPaths so tokens (fun _ => false) limit →
        r.rawTokens.Perm tokens ∧ (g.InTurn p → r.rawTokens = tokens) ∧
          (tokens.Nodup → r.rawTokens = tokens → g.InTurn p) := by
  have hasc := ascending_ofSentences hg
  have hhears := (hp.crosses hasc.valid).hears hplain hg hplainly hnonempty
  refine ⟨(Graph.rawTokens_eq h).1, Graph.rawTokens_of_hears hasc hhears h,
    fun so tokens limit hexact => ?_⟩
  obtain ⟨htokens, hwords⟩ := Graph.words_of_mem_exactPaths hasc.valid hexact
  rw [← htokens, ← Graph.heard_eq_tokens hasc hhears hwords]
  exact Graph.rawTokens_of_hears hasc hhears h (Graph.uniform_of_words hasc hhears hwords)

/-- `(the lamp)!upper`, where both words wait for the converter. -/
def theLampSentence : Sentence :=
  ⟨"(the lamp)!upper",
    [.seq .group "the lamp" [.plain "the", .plain "lamp"] { converters := ["upper"] } none]⟩

def theLampGraph : Graph where
  nodes := #[⟨none, #[0]⟩, ⟨none, #[1]⟩, ⟨none, #[2]⟩, ⟨some "the", #[3]⟩, ⟨some "lamp", #[4]⟩,
    ⟨none, #[5]⟩, ⟨none, #[]⟩]
  edges := #[{ source := 0, target := 1, output := "__label__Lamp" },
    { source := 1, target := 2, output := "__convert__upper" },
    { source := 2, target := 3, input := "the", output := "the" },
    { source := 3, target := 4, input := "lamp", output := "lamp" },
    { source := 4, target := 5, output := "__converted__upper" },
    { source := 5, target := 6 }]
  start := some 0
  final := some 6

/-- The path on which the article matches the given tokens, if any. -/
def theLampPath (article : List String) : Path :=
  [⟨0, 1, []⟩, ⟨1, 2, []⟩, ⟨2, 3, article⟩, ⟨3, 4, ["lamp"]⟩, ⟨4, 5, []⟩, ⟨5, 6, []⟩]

theorem ofSentences_theLampSentence :
    Graph.ofSentences [("Lamp", [theLampSentence])] [] = .ok theLampGraph := by
  have hunfold : theLampSentence.unfold [] "Lamp" =
      .seq .group [.seq .group [.word "the" {} none, .word "lamp" {} none]
        { converters := ["upper"] } none] {} none := by
    simp [Sentence.unfold, Sentence.toExpr, theLampSentence, unfold, unfoldAll, Expr.plain]
  exact (ofSentences_singleton hunfold).trans rfl

theorem rawTokens_theLampGraph :
    theLampPath ["the"] ∈ theLampGraph.exactPaths {} ["the", "lamp"] (fun _ => false) none ∧
      theLampGraph.HearsPlainly (theLampPath ["the"]) ∧
      (∀ s ∈ theLampPath ["the"], "" ∉ s.matched) ∧ theLampGraph.InTurn (theLampPath ["the"]) ∧
      ∃ r, theLampGraph.interpret upperConverters (theLampPath ["the"]) = .ok r ∧
        r.rawTokens = ["the", "lamp"] := by
  have hexact : theLampPath ["the"] ∈
      theLampGraph.exactPaths {} ["the", "lamp"] (fun _ => false) none := by decide +kernel
  have htokens : ∀ s ∈ theLampPath ["the"], ∀ token ∈ s.matched,
      Label.isControl token = false := by decide
  have hplainly : theLampGraph.HearsPlainly (theLampPath ["the"]) :=
    fun s hs _ _ _ => htokens s hs
  have hnonempty : ∀ s ∈ theLampPath ["the"], "" ∉ s.matched := by decide
  have hturn : theLampGraph.InTurn (theLampPath ["the"]) := by decide +kernel
  have hok : theLampGraph.interpret upperConverters (theLampPath ["the"]) = .ok
      { intent := "Lamp", confidence := 1, entities := [], text := "THE LAMP", rawText := "the lamp"
        tokens := [.text "THE", .text "LAMP"], rawTokens := ["the", "lamp"] } := rfl
  obtain ⟨-, -, hpath⟩ := rawTokens_of_found (by decide) ofSentences_theLampSentence (.exact hexact)
    hplainly hnonempty hok
  exact ⟨hexact, hplainly, hnonempty, hturn, _, hok, (hpath {} _ none hexact).2.1 hturn⟩

/-- `(dim lights:lamps)!upper`, where one of the words is not said. -/
def dimLightsSentence : Sentence :=
  ⟨"(dim lights:lamps)!upper",
    [.seq .group "dim lights:lamps"
      [.plain "dim", .word "lights" { substitution := some ["lamps"] } none]
      { converters := ["upper"] } none]⟩

def dimLightsGraph : Graph where
  nodes := #[⟨none, #[0]⟩, ⟨none, #[1]⟩, ⟨none, #[2]⟩, ⟨some "dim", #[3]⟩, ⟨some "lights", #[4]⟩,
    ⟨none, #[5]⟩, ⟨none, #[6]⟩, ⟨none, #[]⟩]
  edges := #[{ source := 0, target := 1, output := "__label__Lamp" },
    { source := 1, target := 2, output := "__convert__upper" },
    { source := 2, target := 3, input := "dim", output := "dim" },
    { source := 3, target := 4, input := "lights" },
    { source := 4, target := 5, output := "lamps" },
    { source := 5, target := 6, output := "__converted__upper" },
    { source := 6, target := 7 }]
  start := some 0
  final := some 7

def dimLightsPath : Path :=
  [⟨0, 1, []⟩, ⟨1, 2, []⟩, ⟨2, 3, ["dim"]⟩, ⟨3, 4, ["lights"]⟩, ⟨4, 5, []⟩, ⟨5, 6, []⟩, ⟨6, 7, []⟩]

theorem ofSentences_dimLightsSentence :
    Graph.ofSentences [("Lamp", [dimLightsSentence])] [] = .ok dimLightsGraph := by
  have hunfold : dimLightsSentence.unfold [] "Lamp" =
      .seq .group [.seq .group
        [.word "dim" {} none, .word "lights" { substitution := some ["lamps"] } none]
        { converters := ["upper"] } none] {} none := by
    simp [Sentence.unfold, Sentence.toExpr, dimLightsSentence, unfold, unfoldAll, Expr.plain]
  exact (ofSentences_singleton hunfold).trans rfl

/-- The word that is not said overtakes the one that waits, although both are matched; and
a matched word is heard twice beside one that is passed over. -/
theorem rawTokens_ne_heard :
    (PlainTemplates [("Lamp", [dimLightsSentence])] [] ∧
      Graph.ofSentences [("Lamp", [dimLightsSentence])] [] = .ok dimLightsGraph ∧
      dimLightsGraph.exactPaths {} ["dim", "lights"] = [dimLightsPath] ∧
      dimLightsGraph.heard dimLightsPath = ["dim", "lights"] ∧
      (dimLightsGraph.interpret upperConverters dimLightsPath).map Recognition.rawTokens
        = .ok ["lights", "dim"]) ∧
    PlainTemplates [("Lamp", [theLampSentence])] [] ∧
      Graph.ofSentences [("Lamp", [theLampSentence])] [] = .ok theLampGraph ∧
      theLampGraph.exactPaths {} ["lamp"] (· == "the") = [theLampPath []] ∧
      theLampGraph.heard (theLampPath []) = ["the", "lamp"] ∧
      (theLampGraph.interpret upperConverters (theLampPath [])).map Recognition.rawTokens
        = .ok ["lamp", "lamp"] :=
  ⟨⟨by decide, ofSentences_dimLightsSentence, by decide, by decide, rfl⟩, by decide,
    ofSentences_theLampSentence, by decide, by decide, rfl⟩

end Utterance
