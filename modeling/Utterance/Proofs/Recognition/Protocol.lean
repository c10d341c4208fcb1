import Utterance.Proofs.Recognition.Steps

/-!
# Paths obey the protocol of marks

A path through a compiled graph carries one intent's label, on its first edge,
and what it opens after that it closes, the innermost first.  So interpreting it
can go wrong in a converter only (`Graph.Crosses.interpret_spec`).  This holds as
long as nothing that is said in place of a wildcard steers, which is so if no
matched token looks like a mark (`interpret_of_found`).
-/

namespace Utterance

namespace Graph

/-- The controls that are said along a path. -/
def controls (g : Graph) (p : Path) : List Control := (g.labels p).filterMap Control.read?

/-- The controls that are written on the edges of a path. -/
def written (g : Graph) (p : Path) : List Control := (g.spelled p).filterMap Mark.control?

/-- No token that looks like a mark is matched where a wildcard is said. -/
def HearsPlainly (g : Graph) (p : Path) : Prop :=
  ∀ s ∈ p, ∀ e, g.edge? s.source s.target = some e → e.output = wildcard →
    ∀ token ∈ s.matched, Label.isControl token = false

/-- An edge whose label starts no intent carries no intent's label. -/
theorem intent?_output_of_label? {g : Graph} {s : PathStep} {e : Edge} {label : String}
    (he : g.edge? s.source s.target = some e) (hlabel : g.label? s = some label)
    (hintent : Label.intent? label = none) : Label.intent? e.output = none := by
  cases hname : Label.intent? e.output with
  | none => rfl
  | some name =>
      have houtput := Label.intent?_eq_some.mp hname
      rw [label?, he, Option.bind_some,
        Edge.spoken_of_ne (houtput ▸ Control.text_ne_wildcard _), houtput,
        Label.unpack?_of_not_packed (Control.not_packed _)] at hlabel
      rw [← Option.some.inj hlabel, Label.intent?_text] at hintent
      cases hintent

/-- A path that enters an intent and says no further one carries one intent's
label. -/
theorem intentsOn_cons {g : Graph} {s : PathStep} {p : Path} {intent : String}
    (hentered : g.entered? (s :: p) = some intent)
    (hp : ∀ s ∈ p, ∃ label, g.label? s = some label ∧ Label.intent? label = none) :
    g.intentsOn (s :: p) = [intent] := by
  have hrest : g.intentsOn p = [] := by
    refine List.filterMap_eq_nil_iff.mpr fun t ht => ?_
    obtain ⟨label, hlabel, hintent⟩ := hp t ht
    cases he : g.edge? t.source t.target with
    | none => rfl
    | some e => exact intent?_output_of_label? he hlabel hintent
  have hfirst : g.intentsOn (s :: p) = (g.entered? (s :: p)).toList ++ g.intentsOn p :=
    filterMap_cons_toList _ s p
  rw [hfirst, hentered, hrest]
  rfl

theorem Follows.exists_edge {g : Graph} {R : Edge → List String → Prop} {a b : Nat} {p : Path}
    (hp : g.Follows R a p b) :
    ∀ s ∈ p, ∃ e, g.edge? s.source s.target = some e ∧ R e s.matched := by
  induction hp with
  | nil => exact fun _ hs => (List.not_mem_nil hs).elim
  | cons he hR _ ih =>
      intro s hs
      rcases List.mem_cons.mp hs with rfl | hs
      · exact ⟨_, he, hR⟩
      · exact ih s hs

end Graph

theorem Label.inert_of_not_isControl {text : String} (h : Label.isControl text = false) :
    Label.Inert text :=
  ⟨text, Label.unpack?_of_not_packed (Label.not_mark_of_not_isControl h),
    .inl (Control.read?_of_not_isControl h)⟩

/-- A single token that does not look like a mark is inert. -/
theorem Graph.Follows.saysInert {g : Graph} {a b : Nat} {p : Path}
    (hp : g.Follows Edge.Takes a p b) (hplainly : g.HearsPlainly p) : g.SaysOnly Label.Inert p := by
  intro s hs e he hwild
  obtain ⟨e', he', htakes⟩ := hp.exists_edge s hs
  rcases htakes with hmatched | ⟨-, token, hmatched⟩
  · rw [hmatched]
    exact Label.inert_of_not_isControl (by decide)
  · have htoken := hplainly s hs e he hwild token (by rw [hmatched]; exact List.mem_cons_self)
    rw [hmatched]
    exact Label.inert_of_not_isControl htoken

/-- What a path through a compiled graph comes to if nothing steers where a
wildcard is said: what is written on its edges decides. -/
theorem Graph.Crosses.interpret_spec {l : IntentSentences} {t : Table} {o : CompileOptions}
    {g : Graph} (hplain : PlainTemplates l t) (hg : Graph.ofSentences l t o = .ok g)
    {R : Edge → List String → Prop} {p : Path} (hp : g.Crosses R p)
    (hinert : g.SaysOnly Label.Inert p) {cs : Converters} (hcs : cs.DisplaysOn (g.written p))
    (cost : Option Float) :
    ∃ intent, g.entered? p = some intent ∧ g.intentsOn p = [intent] ∧
      (∃ l, g.controls p = .intent intent :: l ∧ Nested l) ∧
      ((∃ r, g.interpret cs p cost = .ok r ∧ r.intent = intent ∧
          r.entities.map Entity.name = (g.written p).filterMap Control.closed?)
        ∨ ∃ err, g.interpret cs p cost = .error err ∧ cs.Gives (g.written p) err) := by
  obtain ⟨_, _, E⟩ := ofSentences_extends hg
  obtain ⟨intent, s, rest, a, b, rfl, hentered, hfirst, hrest, hbalanced, hspelled⟩ :=
    hp.exists_steps hplain hg
  have hcarries := hrest.carries E.ascending hbalanced.tame
    fun t ht => hinert t (List.mem_cons_of_mem _ ht)
  have hnest : Nested ((g.labels rest).filterMap Control.read?) := by
    rw [Nested, hcarries.nestAll_eq]
    exact hbalanced.nestAll_eq []
  have hcontrols : g.controls (s :: rest) = .intent intent :: g.controls rest := by
    rw [controls, labels_cons hfirst, filterMap_cons_toList, Control.read?_text]
    rfl
  have hwritten : g.written (s :: rest) = .intent intent :: g.written rest := by
    have hlabel : (intentMark intent).label? = some (Control.intent intent).text :=
      Label.unpack?_of_not_packed (Control.not_packed _)
    rw [written, hspelled, filterMap_cons_toList, Mark.control?, hlabel, Option.bind_some,
      Control.read?_text]
    rfl
  have hends : ∀ key, .endConvert key ∈ (g.labels rest).filterMap Control.read? →
      .endConvert key ∈ g.written (s :: rest) := fun key hkey => by
    rw [hwritten]
    exact List.mem_cons_of_mem _ (hcarries.converters key hkey)
  refine ⟨intent, hentered, intentsOn_cons hentered hcarries.said, ⟨_, hcontrols, hnest⟩, ?_⟩
  rcases interpret_path (fun hkey => hcs (hends _ hkey)) hfirst hcarries.said hnest cost with
    ⟨r, values, hr, -, hname, -, hentities⟩ | ⟨err, herr, -, key, values, hkey, hvalues, happly⟩
  · refine .inl ⟨r, hr, hname, ?_⟩
    rw [hentities, hcarries.closed_eq, hwritten]
    rfl
  · exact .inr ⟨err, herr, key, values, hends _ hkey, hvalues, happly⟩

/-- Whatever path a search finds in a compiled graph, if no matched token looks
like a mark, the path carries the label of the intent it enters and no other, what
it opens is closed again, and only a converter can keep it from being a
recognition of the intent. -/
theorem interpret_of_found {l : IntentSentences} {t : Table} {o : CompileOptions} {g : Graph}
    (hplain : PlainTemplates l t) (hg : Graph.ofSentences l t o = .ok g) {p : Path}
    (hp : g.Found p) (hplainly : g.HearsPlainly p) {cs : Converters} (hcs : cs.Displays)
    (hshows : cs.Shows) (cost : Option Float) :
    ∃ intent, g.entered? p = some intent ∧ g.intentsOn p = [intent] ∧
      (∃ l, g.controls p = .intent intent :: l ∧ Nested l) ∧
      ((∃ r, g.interpret cs p cost = .ok r ∧ r.intent = intent)
        ∨ ∃ err, g.interpret cs p cost = .error err ∧ err.FromConverter) := by
  obtain ⟨_, _, E⟩ := ofSentences_extends hg
  have hcrosses := hp.crosses E.ascending.valid
  obtain ⟨_, _, _, _, hfollows⟩ := id hcrosses
  obtain ⟨intent, hentered, hintents, hcontrols, hresult⟩ :=
    hcrosses.interpret_spec hplain hg (hfollows.saysInert hplainly) (hcs.on _) cost
  refine ⟨intent, hentered, hintents, hcontrols, ?_⟩
  rcases hresult with ⟨r, hr, hname, -⟩ | ⟨err, herr, hgives⟩
  · exact .inl ⟨r, hr, hname⟩
  · exact .inr ⟨err, herr, hgives.fromConverter hshows⟩

/-- `play *!upper{song}`, where any words may stand for the song. -/
def playSentence : Sentence :=
  ⟨"play *!upper\x7bsong\x7d",
    [.plain "play", .word "*" { converters := ["upper"] } (some { name := "song" })]⟩

def playGraph : Graph where
  nodes := #[⟨none, #[0]⟩, ⟨none, #[1]⟩, ⟨some "play", #[2]⟩, ⟨none, #[3]⟩, ⟨none, #[4, 5]⟩,
    ⟨some "*", #[6]⟩, ⟨none, #[7]⟩, ⟨none, #[8]⟩, ⟨none, #[]⟩]
  edges := #[{ source := 0, target := 1, output := "__label__Music" },
    { source := 1, target := 2, input := "play", output := "play" },
    { source := 2, target := 3, output := "__begin__song" },
    { source := 3, target := 4, output := "__convert__upper" },
    { source := 4, target := 4, input := "*", output := "*" },
    { source := 4, target := 5, input := "*", output := "*" },
    { source := 5, target := 6, output := "__converted__upper" },
    { source := 6, target := 7, output := "__end__song" },
    { source := 7, target := 8 }]
  start := some 0
  final := some 8

theorem unfold_playSentence (t : Table) (intent : String) :
    playSentence.unfold t intent = .seq .group
      [.word "play" {} none, .word "*" { converters := ["upper"] } (some { name := "song" })]
      {} none := by
  simp [Sentence.unfold, Sentence.toExpr, playSentence, unfold, unfoldAll, Expr.plain]

theorem ofSentences_playSentence :
    Graph.ofSentences [("Music", [playSentence])] [] = .ok playGraph := by
  exact (ofSentences_singleton (unfold_playSentence _ _)).trans rfl

/-- The wildcard hears some words on this path. -/
def playPath (words : List String) : Path :=
  [⟨0, 1, []⟩, ⟨1, 2, ["play"]⟩, ⟨2, 3, []⟩, ⟨3, 4, []⟩]
    ++ words.dropLast.map (fun word => ⟨4, 4, [word]⟩)
    ++ [⟨4, 5, words.getLast?.toList⟩, ⟨5, 6, []⟩, ⟨6, 7, []⟩, ⟨7, 8, []⟩]

theorem interpret_playPath :
    playGraph.Found (playPath ["let", "it", "be"]) ∧
      playGraph.HearsPlainly (playPath ["let", "it", "be"]) ∧
      upperConverters.Displays ∧ upperConverters.Shows ∧
      ∃ intent, playGraph.entered? (playPath ["let", "it", "be"]) = some intent ∧
        playGraph.intentsOn (playPath ["let", "it", "be"]) = [intent] ∧
        (∃ l, playGraph.controls (playPath ["let", "it", "be"]) = .intent intent :: l ∧ Nested l) ∧
        ((∃ r, playGraph.interpret upperConverters (playPath ["let", "it", "be"]) = .ok r ∧
            r.intent = intent)
          ∨ ∃ err, playGraph.interpret upperConverters (playPath ["let", "it", "be"]) = .error err ∧
            err.FromConverter) := by
  have hfound : playPath ["let", "it", "be"]
      ∈ playGraph.exactPaths {} ["play", "let", "it", "be"] := by decide
  have htokens : ∀ s ∈ playPath ["let", "it", "be"], ∀ token ∈ s.matched,
      Label.isControl token = false := by decide
  have hplainly : playGraph.HearsPlainly (playPath ["let", "it", "be"]) :=
    fun s hs _ _ _ => htokens s hs
  exact ⟨.exact hfound, hplainly, displays_upperConverters, shows_upperConverters,
    interpret_of_found (by decide) ofSentences_playSentence (.exact hfound) hplainly
      displays_upperConverters shows_upperConverters none⟩

end Utterance
