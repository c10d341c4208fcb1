import Utterance.Proofs.Recognition.Protocol

/-!
# What may be heard for a wildcard

The text that is heard for a wildcard is said as a label, and so it can steer.  If
it is inert on two copies of a path that differ at the wildcards only, both are
recognitions of one intent with entities of the same names
(`Graph.Crosses.sameOutcome`).  A text that is not inert acts as a mark: for
the template `*` alone it changes the intent or keeps the path from being a
recognition (`of_interpret_starPath`).  Together this says exactly which texts are
harmless (`inert_iff_sameOutcome`).
-/

namespace Utterance

open Utterance.Graph

/-- The converter under a key takes all displayable values and gives displayable
ones. -/
def Converters.Serves (cs : Converters) (key : String) : Prop :=
  ∀ values, (∀ v ∈ values, Value.Displayable v) →
    ∃ vs, cs.apply key values = .ok vs ∧ ∀ v ∈ vs, v.Displayable

namespace Graph

/-- The registry serves all converters that are closed on the edges of a path. -/
def ServedBy (g : Graph) (cs : Converters) (p : Path) : Prop :=
  ∀ s ∈ p, ∀ e, g.edge? s.source s.target = some e →
    ∀ key, e.mark.control? = some (.endConvert key) → cs.Serves key

/-- Two paths take the same edges and match the same tokens, except at wildcards. -/
def Alike (g : Graph) (p q : Path) : Prop :=
  List.Forall₂ (fun s t => s.source = t.source ∧ s.target = t.target ∧
    (s.matched = t.matched ∨ ∃ e, g.edge? s.source s.target = some e ∧
      (e.input = wildcard ∨ e.output = wildcard))) p q

namespace Alike

variable {g : Graph} {p q : Path}

theorem spelled_eq (h : g.Alike p q) : g.spelled p = g.spelled q := by
  induction h with
  | nil => rfl
  | @cons s t p q hst _ ih =>
      obtain ⟨hsource, htarget, -⟩ := hst
      rw [spelled, spelled, List.flatMap_cons, List.flatMap_cons, hsource, htarget]
      exact congrArg (_ ++ ·) ih

theorem entered?_eq (h : g.Alike p q) : g.entered? p = g.entered? q := by
  cases h with
  | nil => rfl
  | cons hst _ =>
      rw [entered?, entered?, List.head?_cons, List.head?_cons, Option.bind_some,
        Option.bind_some, hst.1, hst.2.1]

theorem follows (h : g.Alike p q) : ∀ {a b : Nat} {R : Edge → List String → Prop},
    g.Follows R a p b → g.Follows (fun _ _ => True) a q b := by
  induction h with
  | nil =>
      intro a b R hp
      cases hp
      exact .nil a
  | @cons s t p q hst _ ih =>
      intro a b R hp
      cases hp with
      | cons he _ hp =>
          obtain ⟨source, target, matched⟩ := t
          obtain ⟨rfl, rfl, -⟩ := hst
          exact .cons he trivial (ih hp)

end Alike

/-- The registry serves what is written on a path if it does so on its edges. -/
theorem ServedBy.written {g : Graph} {cs : Converters} {p : Path} (h : g.ServedBy cs p)
    {key : String} (hkey : .endConvert key ∈ g.written p) : cs.Serves key := by
  obtain ⟨m, hm, hcontrol⟩ := List.mem_filterMap.mp hkey
  obtain ⟨s, hs, hm⟩ := List.mem_flatMap.mp hm
  split at hm
  next =>
    cases he : g.edge? s.source s.target with
    | none =>
        rw [mark?, he] at hm
        exact absurd hm (by simp [Mark.spelled])
    | some e =>
        rw [mark?_of_edge? he, Option.getD_some] at hm
        exact h s hs e he key (Mark.eq_of_mem_spelled hm ▸ hcontrol)
  next => exact (List.not_mem_nil hm).elim

theorem ServedBy.displaysOn {g : Graph} {cs : Converters} {p : Path} (h : g.ServedBy cs p) :
    cs.DisplaysOn (g.written p) := by
  intro key values vs hkey hvalues happly
  obtain ⟨ws, hws, hdisplayable⟩ := h.written hkey values hvalues
  obtain rfl := Except.ok.inj (hws.symm.trans happly)
  exact hdisplayable

theorem ServedBy.not_gives {g : Graph} {cs : Converters} {p : Path} (h : g.ServedBy cs p)
    (err : InterpretError) : ¬ cs.Gives (g.written p) err := by
  rintro ⟨key, values, hkey, hvalues, happly⟩
  obtain ⟨ws, hws, -⟩ := h.written hkey values hvalues
  rw [hws] at happly
  cases happly

/-- If all converters are served and nothing steers at the wildcards, a path is a
recognition. -/
theorem Crosses.exists_interpret {l : IntentSentences} {t : Table} {o : CompileOptions}
    {g : Graph} (hplain : PlainTemplates l t) (hg : Graph.ofSentences l t o = .ok g)
    {R : Edge → List String → Prop} {p : Path} (hp : g.Crosses R p)
    (hinert : g.SaysOnly Label.Inert p) {cs : Converters} (hcs : cs.DisplaysOn (g.written p))
    (hgives : ∀ err, ¬ cs.Gives (g.written p) err) (cost : Option Float) :
    ∃ r, g.interpret cs p cost = .ok r ∧ g.entered? p = some r.intent ∧
      r.entities.map Entity.name = (g.written p).filterMap Control.closed? := by
  obtain ⟨intent, hentered, -, -, hresult⟩ := hp.interpret_spec hplain hg hinert hcs cost
  rcases hresult with ⟨r, hr, rfl, hentities⟩ | ⟨err, -, herr⟩
  · exact ⟨r, hr, hentered, hentities⟩
  · exact absurd herr (hgives err)

/-- Both paths are recognitions of one intent, with entities of the same names. -/
def SameOutcome (g : Graph) (cs : Converters) (p q : Path) : Prop :=
  ∀ c d : Option Float, ∃ r n, g.interpret cs p c = .ok r ∧ g.interpret cs q d = .ok n ∧
    r.intent = n.intent ∧ r.entities.map Entity.name = n.entities.map Entity.name

/-- Copies of a path that differ only in inert texts at the wildcards come to the
same. -/
theorem Crosses.sameOutcome {l : IntentSentences} {t : Table} {o : CompileOptions} {g : Graph}
    (hplain : PlainTemplates l t) (hg : Graph.ofSentences l t o = .ok g)
    {R : Edge → List String → Prop} {p q : Path} (hp : g.Crosses R p) (halike : g.Alike p q)
    (hpinert : g.SaysOnly Label.Inert p) (hqinert : g.SaysOnly Label.Inert q) {cs : Converters}
    (hcs : g.ServedBy cs p) : g.SameOutcome cs p q := by
  intro c d
  have hwritten : g.written p = g.written q := congrArg (List.filterMap _) halike.spelled_eq
  obtain ⟨start, final, hstart, hfinal, hfollows⟩ := id hp
  have hq : g.Crosses (fun _ _ => True) q := ⟨start, final, hstart, hfinal, halike.follows hfollows⟩
  obtain ⟨r, hr, hentered, hentities⟩ :=
    hp.exists_interpret hplain hg hpinert hcs.displaysOn hcs.not_gives c
  obtain ⟨n, hn, hentered', hentities'⟩ :=
    hq.exists_interpret hplain hg hqinert (hwritten ▸ hcs.displaysOn) (hwritten ▸ hcs.not_gives) d
  have hintent := hentered.symm.trans (halike.entered?_eq.trans hentered')
  refine ⟨r, n, hr, hn, Option.some.inj hintent, ?_⟩
  rw [hentities, hentities', hwritten]

end Graph

/-! ## The template of a single wildcard -/

/-- On its own no control but the name of a source can be taken down. -/
theorem source_of_lone_control {cs : Converters} {c : Control} {e : Emission} {parts : List Part}
    {speech : Speech} (hread : Control.read? e.label = some c) (hc : ∀ name, c ≠ .intent name)
    (hparts : convertParts cs [] [e] = .ok parts) (hspeech : Speech.ofParts parts = .ok speech) :
    ∃ slot, c = .source slot := by
  have hsaid : e.part.said = .control e.label := by
    rw [Emission.part, Control.eq_text_of_read? hread]
    exact c.ofLabel_text
  have hadd : Control.Passes (Control.read? e.label) →
      ∃ s, Speech.add {} e.part = .ok s ∧ s.opened = [] := by
    intro hpasses
    rw [convertParts_passes_nil hpasses] at hparts
    cases hparts
    obtain ⟨s, hs, hspeech⟩ := Except.bind_eq_ok.mp hspeech
    obtain ⟨s', hs', hnil⟩ := Except.bind_eq_ok.mp hs
    cases hnil
    refine ⟨s, hs', ?_⟩
    split at hspeech
    next hopened => exact hopened
    next => cases hspeech
  cases c with
  | intent name => exact (hc name rfl).elim
  | source slot => exact ⟨slot, rfl⟩
  | beginConvert key =>
      rw [convertParts_begin hread] at hparts
      cases hparts
  | endConvert key =>
      rw [convertParts_end_nil hread] at hparts
      cases hparts
  | beginEntity name =>
      obtain ⟨s, hs, hopened⟩ := hadd (hread ▸ Control.passes_some rfl)
      simp only [Speech.add, hsaid, hread] at hs
      cases hs
      cases hopened
  | endEntity name =>
      obtain ⟨s, hs, -⟩ := hadd (hread ▸ Control.passes_some rfl)
      simp only [Speech.add, hsaid, hread] at hs
      cases hs

def starSentence : Sentence := ⟨"*", [.plain "*"]⟩

def starGraph (intent : String) : Graph where
  nodes := #[⟨none, #[0]⟩, ⟨none, #[1, 2]⟩, ⟨some "*", #[3]⟩, ⟨none, #[]⟩]
  edges := #[{ source := 0, target := 1, output := (Control.intent intent).text },
    { source := 1, target := 1, input := "*", output := "*" },
    { source := 1, target := 2, input := "*", output := "*" },
    { source := 2, target := 3 }]
  start := some 0
  final := some 3

/-- The path on which the wildcard hears one token. -/
def starPath (token : String) : Path := [⟨0, 1, []⟩, ⟨1, 2, [token]⟩, ⟨2, 3, []⟩]

section

variable (intent : String)

theorem ofSentences_starSentence :
    Graph.ofSentences [(intent, [starSentence])] [] = .ok (starGraph intent) := by
  have hweights : edgeWeights [(intent, [starSentence])] [] {} = .ok [none] := rfl
  have hunfold : starSentence.unfold [] intent = .seq .group [.word "*" {} none] {} none := by
    simp [Sentence.unfold, Sentence.toExpr, starSentence, unfold, unfoldAll, Expr.plain]
  have hpack : Label.pack "*" = "*" := by decide
  unfold Graph.ofSentences starGraph
  simp only [hweights, bind, Except.bind, List.zip_cons_cons, List.zip_nil_left, buildIntents,
    buildIntent, List.map_cons, List.map_nil, hunfold]
  simp [buildEach, build, buildInTurn, Built.wrap, Built.word, Built.andThen, isReplaced,
    labelsBefore, labelsAfter, ownWords, tagConverters, tagSubstitution, emitAll, addWord, join,
    addState, setStart, setFinal, addEdge, modifyEdge, Edge.decorate, position?, outOf, Graph.size,
    wildcard, hpack]

theorem plain_starSentence : PlainTemplates [(intent, [starSentence])] [] := by
  have hplain : PlainTemplates [("", [starSentence])] [] := by decide
  exact hplain

/-- The edges that the path takes. -/
theorem edge?_starPath {token : String} {s : PathStep} (hs : s ∈ starPath token) :
    (s = ⟨0, 1, []⟩ ∧ (starGraph intent).edge? s.source s.target
        = some { source := 0, target := 1, output := (Control.intent intent).text })
      ∨ (s = ⟨1, 2, [token]⟩ ∧ (starGraph intent).edge? s.source s.target
        = some { source := 1, target := 2, input := "*", output := "*" })
      ∨ s = ⟨2, 3, []⟩ ∧ (starGraph intent).edge? s.source s.target
        = some { source := 2, target := 3 } := by
  simp only [starPath, List.mem_cons, List.not_mem_nil, or_false] at hs
  rcases hs with rfl | rfl | rfl
  · exact .inl ⟨rfl, rfl⟩
  · exact .inr (.inl ⟨rfl, rfl⟩)
  · exact .inr (.inr ⟨rfl, rfl⟩)

theorem crosses_starPath (token : String) :
    (starGraph intent).Crosses (fun _ _ => True) (starPath token) :=
  ⟨0, 3, rfl, rfl, .cons rfl trivial (.cons rfl trivial (.cons rfl trivial (.nil 3)))⟩

theorem saysOnly_starPath {P : String → Prop} {token : String} (h : P token) :
    (starGraph intent).SaysOnly P (starPath token) := by
  intro s hs e he hwild
  rcases edge?_starPath intent hs with ⟨rfl, hedge⟩ | ⟨rfl, -⟩ | ⟨rfl, hedge⟩
  · obtain rfl := Option.some.inj (he.symm.trans hedge)
    exact (Control.text_ne_wildcard (.intent intent) hwild).elim
  · exact h
  · obtain rfl := Option.some.inj (he.symm.trans hedge)
    exact absurd hwild (by decide)

theorem alike_starPath (token other : String) :
    (starGraph intent).Alike (starPath token) (starPath other) :=
  .cons ⟨rfl, rfl, .inl rfl⟩ (.cons ⟨rfl, rfl, .inr ⟨_, rfl, .inl rfl⟩⟩
    (.cons ⟨rfl, rfl, .inl rfl⟩ .nil))

theorem servedBy_starPath (token : String) (cs : Converters) :
    (starGraph intent).ServedBy cs (starPath token) := by
  have hlabel : Mark.label? ⟨"", (Control.intent intent).text⟩ = some (Control.intent intent).text :=
    Label.unpack?_of_not_packed (Control.not_packed _)
  intro s hs e he key hkey
  rcases edge?_starPath intent hs with ⟨rfl, hedge⟩ | ⟨rfl, hedge⟩ | ⟨rfl, hedge⟩
  · obtain rfl := Option.some.inj (he.symm.trans hedge)
    change Mark.control? ⟨"", (Control.intent intent).text⟩ = _ at hkey
    rw [Mark.control?, hlabel, Option.bind_some, Control.read?_text] at hkey
    cases hkey
  · obtain rfl := Option.some.inj (he.symm.trans hedge)
    rw [Mark.control?_of_wildcard rfl] at hkey
    cases hkey
  · obtain rfl := Option.some.inj (he.symm.trans hedge)
    cases Mark.control?_silent.symm.trans hkey

theorem emissions_starPath (token : String) : (starGraph intent).emissions (starPath token)
    = match Label.unpack? token with
      | none => .error (.badLabel token)
      | some label =>
        .ok [⟨"", (Control.intent intent).text, []⟩, ⟨"*", label, [token]⟩, ⟨"", "", []⟩] := by
  have hlabel : (starGraph intent).label? ⟨0, 1, []⟩ = some (Control.intent intent).text := by
    change Label.unpack? (Edge.spoken { source := 0, target := 1, output := _ } []) = _
    rw [Edge.spoken_of_ne (e := { source := 0, target := 1, output := (Control.intent intent).text })
      (Control.text_ne_wildcard (.intent intent))]
    exact Label.unpack?_of_not_packed (Control.not_packed _)
  have hfirst : (starGraph intent).emission ⟨0, 1, []⟩
      = .ok ⟨"", (Control.intent intent).text, []⟩ := by
    rw [emission_eq (hlabel ▸ rfl), emissionAt, hlabel]
    rfl
  have htoken : (starGraph intent).emission ⟨1, 2, [token]⟩
      = match Label.unpack? token with
        | none => .error (.badLabel token)
        | some label => .ok ⟨"*", label, [token]⟩ := rfl
  have hlast : (starGraph intent).emission ⟨2, 3, []⟩ = .ok ⟨"", "", []⟩ := rfl
  rw [emissions, starPath, List.mapM_cons, List.mapM_cons, List.mapM_cons, hfirst, htoken, hlast]
  cases Label.unpack? token <;> rfl

/-- What is heard at the wildcard takes part in the interpretation, unless it starts
an intent. -/
theorem filter_counts_star (label token : String) :
    List.filter Emission.counts
        [⟨"", (Control.intent intent).text, []⟩, ⟨"*", label, [token]⟩, ⟨"", "", []⟩]
      = if (Label.intent? label).isNone then [⟨"*", label, [token]⟩] else [] := by
  have hfirst : Emission.counts ⟨"", (Control.intent intent).text, []⟩ = false := by
    rw [Emission.counts, Emission.intent?, Label.intent?_text]
    rfl
  have hlast : Emission.counts ⟨"", "", []⟩ = false := by decide
  have htoken : Emission.counts ⟨"*", label, [token]⟩ = (Label.intent? label).isNone :=
    Bool.and_true _
  rw [List.filter_cons, hfirst, if_neg Bool.false_ne_true, List.filter_cons, htoken,
    List.filter_cons, hlast, if_neg Bool.false_ne_true, List.filter_nil]

/-- If the path is a recognition, then what its wildcard hears is inert or names the
intent. -/
theorem of_interpret_starPath {token : String} {cs : Converters} {cost : Option Float}
    {r : Recognition} (hr : (starGraph intent).interpret cs (starPath token) cost = .ok r) :
    Label.Inert token ∨
      ∃ name, Label.unpack? token = some (Control.intent name).text ∧ r.intent = name := by
  have hes := emissions_starPath intent token
  unfold Graph.interpret at hr
  cases hlabel : Label.unpack? token with
  | none =>
      rw [hes, hlabel] at hr
      cases hr
  | some label =>
      rw [hes, hlabel] at hr
      obtain ⟨es, hok, hr⟩ := Except.bind_eq_ok.mp hr
      cases hok
      obtain ⟨parts, hparts, hr⟩ := Except.bind_eq_ok.mp hr
      obtain ⟨speech, hspeech, hr⟩ := Except.bind_eq_ok.mp hr
      obtain ⟨text, -, hr⟩ := Except.bind_eq_ok.mp hr
      rw [filter_counts_star] at hparts
      cases hread : Control.read? label with
      | none => exact .inl ⟨label, hlabel, .inl hread⟩
      | some c =>
          obtain rfl := Control.eq_text_of_read? hread
          by_cases hc : ∃ name, c = .intent name
          · obtain ⟨name, rfl⟩ := hc
            refine .inr ⟨name, rfl, ?_⟩
            have hlast : Emission.intent? ⟨"", "", []⟩ = none := by decide
            have htoken : Emission.intent? ⟨"*", (Control.intent name).text, [token]⟩ = some name :=
              Label.intent?_text name
            cases hr
            change (List.findSome? Emission.intent? [_, _, _]).getD "" = name
            rw [List.findSome?_cons, hlast]
            change (List.findSome? Emission.intent? [_, _]).getD "" = name
            rw [List.findSome?_cons, htoken]
            rfl
          · have hnone : Label.intent? c.text = none := Label.intent?_of_read? fun name hname => by
              rw [Control.read?_text] at hname
              exact hc ⟨name, Option.some.inj hname⟩
            rw [hnone, Option.isNone_none, if_pos rfl] at hparts
            obtain ⟨slot, rfl⟩ := source_of_lone_control (e := ⟨"*", c.text, [token]⟩) hread
              (fun name h => hc ⟨name, h⟩) hparts hspeech
            exact .inl ⟨_, hlabel, .inr ⟨slot, hread⟩⟩

theorem entered?_starPath (token : String) :
    (starGraph intent).entered? (starPath token) = some intent :=
  Label.intent?_text intent

end

/-! ## Harmless texts -/

/-- Inert texts, and no others, may be heard for wildcards instead of inert ones
without any effect on intent and entities, whatever the templates are. -/
theorem inert_iff_sameOutcome (P : String → Prop) :
    (∀ text, P text → Label.Inert text) ↔
      ∀ (l : IntentSentences) (t : Table) (o : CompileOptions) (g : Graph), PlainTemplates l t →
        Graph.ofSentences l t o = .ok g → ∀ (R : Edge → List String → Prop) (p q : Path),
        g.Crosses R p → g.Alike p q → g.SaysOnly Label.Inert p → g.SaysOnly P q →
        ∀ cs : Converters, g.ServedBy cs p → g.SameOutcome cs p q := by
  refine ⟨fun h l t o g hplain hg R p q hp halike hpinert hq cs hcs => ?_, fun h text htext => ?_⟩
  · exact hp.sameOutcome hplain hg halike hpinert (fun s hs e he hwild => h _ (hq s hs e he hwild)) hcs
  · by_contra hinert
    have hword : Label.Inert "word" := Label.inert_of_not_isControl (by decide)
    -- the text would have to name every intent for which it is heard
    have hnames : ∀ intent, Label.unpack? text = some (Control.intent intent).text := by
      intro intent
      have hserved := servedBy_starPath intent "word" {}
      have hcrosses := crosses_starPath intent "word"
      have hsays := saysOnly_starPath intent hword
      obtain ⟨r, n, hr, hn, hsame, -⟩ := h _ _ _ _ (plain_starSentence intent)
        (ofSentences_starSentence intent) _ _ _ hcrosses (alike_starPath intent "word" text) hsays
        (saysOnly_starPath intent htext) {} hserved none none
      obtain ⟨r', hr', hentered, -⟩ := hcrosses.exists_interpret (plain_starSentence intent)
        (ofSentences_starSentence intent) hsays hserved.displaysOn hserved.not_gives none
      obtain rfl : r = r' := Except.ok.inj (hr.symm.trans hr')
      obtain rfl := Option.some.inj ((entered?_starPath intent "word").symm.trans hentered)
      rcases of_interpret_starPath _ hn with hlabel | ⟨name, hlabel, rfl⟩
      · exact absurd hlabel hinert
      · rw [hsame]
        exact hlabel
    have hone := (hnames "A").symm.trans (hnames "B")
    exact absurd hone (by decide)

theorem sameOutcome_starPath :
    Label.Inert "__source__tape" ∧
      (starGraph "Play").SameOutcome {} (starPath "yesterday") (starPath "__source__tape") := by
  have hinert : ∀ text, text = "__source__tape" → Label.Inert text := by
    rintro _ rfl
    exact ⟨"__source__tape", by decide, .inr ⟨"tape", by decide⟩⟩
  have hword : Label.Inert "yesterday" := Label.inert_of_not_isControl (by decide)
  exact ⟨hinert _ rfl, (inert_iff_sameOutcome _).mp hinert _ _ _ _ (plain_starSentence "Play")
    (ofSentences_starSentence "Play") _ _ _ (crosses_starPath "Play" "yesterday")
    (alike_starPath "Play" "yesterday" "__source__tape") (saysOnly_starPath "Play" hword)
    (saysOnly_starPath "Play" rfl) {} (servedBy_starPath "Play" "yesterday" {})⟩

/-- A token that is heard closes an entity that was never opened. -/
theorem not_sameOutcome_starPath :
    PlainTemplates [("Play", [starSentence])] [] ∧
      Graph.ofSentences [("Play", [starSentence])] [] = .ok (starGraph "Play") ∧
      starPath "yesterday" ∈ (starGraph "Play").exactPaths {} ["yesterday"] ∧
      starPath "__end__song" ∈ (starGraph "Play").exactPaths {} ["__end__song"] ∧
      (starGraph "Play").Alike (starPath "yesterday") (starPath "__end__song") ∧
      (starGraph "Play").ServedBy {} (starPath "yesterday") ∧
      (starGraph "Play").interpret {} (starPath "__end__song") = .error (.strayEntity "__end__song") ∧
      ¬ (starGraph "Play").SameOutcome {} (starPath "yesterday") (starPath "__end__song") := by
  have herr : (starGraph "Play").interpret {} (starPath "__end__song")
      = .error (.strayEntity "__end__song") := rfl
  refine ⟨plain_starSentence _, ofSentences_starSentence _, by decide, by decide,
    alike_starPath .., servedBy_starPath "Play" "yesterday" {}, herr, fun h => ?_⟩
  obtain ⟨_, n, -, hn, -⟩ := h none none
  rw [herr] at hn
  cases hn

end Utterance
