import Utterance.Proofs.Recognition.Evaluation
import Utterance.Proofs.Recognition.Order
import Utterance.Proofs.Recognition.Waiting
import Utterance.Proofs.Text.Case

/-!
# Which entities get their values

Along a path through a compiled graph the marks of entities and converters are nested
(`Graph.Crosses.nested_counted`), and if no matched token looks like a mark, all else is
said.  So the parts before converting decide what the entities hold in the end: if every
converter gives a value for a value, an entity gets all values that reach it, unless a
converter is open where it opens.  Then it gets none, although its words are said after
its end (`interpret_reaching`).
-/

namespace Utterance

open Utterance.Graph

/-! ## Paths without wildcards -/

/-- Nothing is heard where a wildcard is said. -/
def Mark.SaysUnheard (m : Mark) : Prop := m.output = wildcard → m.input = ""

theorem saysUnheard_saidMarks (labels : List String) : ∀ m ∈ saidMarks labels, m.SaysUnheard := by
  intro m hm _
  obtain ⟨label, -, hm⟩ := List.mem_flatMap.mp hm
  rw [Mark.eq_of_mem_spelled hm]

theorem saysUnheard_wordMarks {text : String} (hplain : Label.isControl text = false)
    (hne : text ≠ wildcard) (hidden : Bool) : ∀ m ∈ wordMarks hidden text, m.SaysUnheard := by
  intro m hm hwild
  rw [Mark.eq_of_mem_spelled hm] at hwild
  change (if hidden = true then "" else Label.pack text) = wildcard at hwild
  split at hwild
  · exact absurd hwild (by decide)
  · exact absurd hwild ((Label.sayable_of_not_isControl hplain).pack_ne_wildcard hne)

theorem compositional_saysUnheard :
    Compositional (fun h => h.Plain ∧ h.Hears (· ≠ wildcard))
      fun ms => ∀ m ∈ ms, m.SaysUnheard where
  nil _ hm := (List.not_mem_nil hm).elim
  append hl hm := List.forall_mem_append.mpr ⟨hl, hm⟩
  enclose _ _ _ hms := List.forall_mem_append.mpr
    ⟨List.forall_mem_append.mpr ⟨saysUnheard_saidMarks _, hms⟩, saysUnheard_saidMarks _⟩
  word h := saysUnheard_wordMarks (h.1 _ (List.mem_append_left _ (by simp))) (h.2 _ rfl)
  source _ := saysUnheard_saidMarks _

namespace Graph

variable {l : IntentSentences} {t : Table} {o : CompileOptions} {g : Graph} {p : Path}

/-- Where no word is a wildcard, nothing matched is said in place of one. -/
theorem Crosses.hearsPlainly (hplain : PlainTemplates l t)
    (hwords : ∀ h ∈ l.heads ++ t.heads, h.Hears (· ≠ wildcard))
    (hg : Graph.ofSentences l t o = .ok g) (hp : g.Crosses Edge.Takes p) : g.HearsPlainly p := by
  obtain ⟨hmem, final, hfollows⟩ := hp.spelled_mem hg
  have hinputs : g.Inputs (· ≠ wildcard) := inputs_ofSentences (by decide) hwords hg
  obtain ⟨intent, rest, hspelled, hrest⟩ :=
    compositional_saysUnheard.of_mem_languageOfIntents (fun h hh => ⟨hplain h hh, hwords h hh⟩) hmem
  intro s hs e he hwild token htoken
  obtain ⟨e', he', htakes⟩ := hfollows.exists_edge s hs
  obtain rfl : e = e' := Option.some.inj (he.symm.trans he')
  obtain ⟨e', he', hmark⟩ := hfollows.exists_mark (ascending_ofSentences hg) hinputs s hs
  obtain rfl : e = e' := Option.some.inj (he.symm.trans he')
  have hinput : e.input = "" := by
    rcases hmark with hsilent | hspells
    · exact congrArg Mark.input hsilent
    · rw [hspelled] at hspells
      rcases List.mem_cons.mp hspells with hintent | hspells
      · exact congrArg Mark.input hintent
      · exact hrest _ hspells hwild
  rcases htakes with hmatched | ⟨hne, -⟩
  · rw [hmatched] at htoken
    exact (List.not_mem_nil htoken).elim
  · exact absurd hinput hne

/-- Along a path through a compiled graph all labels are marks or do not look like ones. -/
theorem Crosses.clean_counted (hplain : PlainTemplates l t) (hg : Graph.ofSentences l t o = .ok g)
    (hp : g.Crosses Edge.Takes p) (hplainly : g.HearsPlainly p) :
    ∀ e ∈ g.counted p, Label.Clean e.label := by
  obtain ⟨-, final, hfollows⟩ := hp.spelled_mem hg
  obtain ⟨intent, -, rest, -, -, -, -, -, -, hbalanced, hspelled⟩ := hp.exists_steps hplain hg
  have hasc := ascending_ofSentences hg
  intro e he
  obtain ⟨s, hs, rfl⟩ := List.mem_map.mp (List.mem_filter.mp he).1
  obtain ⟨edge, hedge, htakes, hmark⟩ := hfollows.exists_spelled hasc s hs
  change Label.Clean ((g.label? s).getD "")
  rw [label?, hedge, Option.bind_some]
  by_cases hwild : edge.output = wildcard
  · have hheard : Label.isControl (spaced s.matched) = false := by
      rcases htakes with hmatched | ⟨-, token, hmatched⟩
      · rw [hmatched]
        decide
      · rw [hmatched]
        exact hplainly s hs edge hedge hwild token (by rw [hmatched]; exact List.mem_cons_self)
    rw [Edge.spoken_of_eq hwild,
      Label.unpack?_of_not_packed (Label.not_mark_of_not_isControl hheard)]
    exact fun _ => hheard
  · have hlt := (hasc.lt_or_loop (mark?_of_edge? hedge)).resolve_right
      fun hloop => hwild (congrArg Mark.output hloop.2)
    rw [Edge.spoken_of_ne hwild]
    change Label.Clean (edge.mark.label?.getD "")
    rcases hmark hlt with hsilent | hspells
    · rw [hsilent, Mark.label?_silent]
      exact fun _ => by decide
    · rw [hspelled] at hspells
      rcases List.mem_cons.mp hspells with hintent | hspells
      · have hlabel : (intentMark intent).label? = some (Control.intent intent).text :=
          Label.unpack?_of_not_packed (Control.not_packed _)
        rw [hintent, hlabel]
        exact Label.clean_text (.intent intent)
      · obtain ⟨label, hlabel, hclean, -⟩ := hbalanced.tame _ hspells
        rw [hlabel]
        exact hclean

/-- What opens along a path through a compiled graph closes there. -/
theorem Crosses.nested_counted (hplain : PlainTemplates l t) (hg : Graph.ofSentences l t o = .ok g)
    (hp : g.Crosses Edge.Takes p) (hplainly : g.HearsPlainly p) :
    Nested (controlsOf (g.counted p)) := by
  obtain ⟨-, final, hfollows⟩ := hp.spelled_mem hg
  have hinert := hfollows.saysInert hplainly
  obtain ⟨intent, s, rest, a, b, rfl, -, hfirst, hrest, hbalanced, -⟩ := hp.exists_steps hplain hg
  have hcarries := hrest.carries (ascending_ofSentences hg) hbalanced.tame
    fun t ht => hinert t (List.mem_cons_of_mem _ ht)
  obtain ⟨-, hcounted, hnone⟩ := emissions_after_intent hfirst hcarries.said
  rw [counted, hcounted, controlsOf_filter_counts hnone, map_emissionAt_label, Nested,
    hcarries.nestAll_eq]
  exact hbalanced.nestAll_eq []

end Graph

/-! ## Entities of a recognition -/

theorem spaced_ne_empty {words : List String} (hne : words ≠ []) (hwords : ∀ w ∈ words, w ≠ "") :
    spaced words ≠ "" := by
  obtain ⟨w, rest, rfl⟩ := List.exists_cons_of_ne_nil hne
  have hlength := length_spaced (w :: rest)
  have hw : w.length ≠ 0 := fun h => hwords w List.mem_cons_self (String.length_eq_zero_iff.mp h)
  rw [roomAll, room] at hlength
  intro hempty
  rw [hempty] at hlength
  change 0 = _ at hlength
  omega

/-- The value of an entity is empty exactly if the entity holds no tokens. -/
theorem Recognition.Of.value_isSpoken_iff {r : Recognition} {parts : List Part} (hr : r.Of parts)
    {span : Span parts} {e : Entity} (he : span.Holds e) :
    e.value.isSpoken = true ↔ e.tokens ≠ [] := by
  have hsub : e.tokens ⊆ r.tokens := fun v hv => by
    rw [he.tokens_eq] at hv
    rw [hr.tokens_eq, span.saidIn_eq]
    refine List.mem_append_left _ (List.mem_append_right _ ?_)
    exact (((outermost_sublist span.inside).flatMap Part.spoken).filter Value.isSpoken).mem hv
  have hspoken : ∀ v ∈ e.tokens, v.isSpoken = true := fun v hv => by
    rw [he.tokens_eq] at hv
    exact (List.mem_filter.mp hv).2
  have hdisplayable : ∀ v ∈ e.tokens, v.Displayable := fun v hv =>
    displayable_of_shownAll hr.text_eq v (hsub hv)
  obtain ⟨text, htext⟩ := exists_shownAll hdisplayable
  rw [Value.isSpoken, he.display?_value htext, shownAll_eq_ok htext, bne_iff_ne, Ne, Option.some.injEq]
  refine ⟨fun hne hnil => hne (by rw [hnil]; rfl), fun hne => spaced_ne_empty ?_ ?_⟩
  · exact mt List.map_eq_nil_iff.mp hne
  · intro w hw hempty
    obtain ⟨v, hv, rfl⟩ := List.mem_map.mp hw
    obtain ⟨s, hs⟩ := Option.isSome_iff_exists.mp (hdisplayable v hv)
    have hne := bne_iff_ne.mp (hspoken v hv)
    rw [Value.shownText, hs] at hempty
    rw [hs] at hne
    exact hne (congrArg some hempty)

/-- What the entities hold, as the parts before converting have it. -/
theorem Graph.Crosses.delivers_reaching {l : IntentSentences} {t : Table} {o : CompileOptions}
    {g : Graph} (hplain : PlainTemplates l t) (hg : Graph.ofSentences l t o = .ok g) {p : Path}
    (hp : g.Crosses Edge.Takes p) (hplainly : g.HearsPlainly p) {cs : Converters}
    (hcs : ∀ key, .endConvert key ∈ g.controls p → cs.OneForOne key) {cost : Option Float}
    {r : Recognition} (h : g.interpret cs p cost = .ok r) {k : Nat} {e : Entity}
    (he : r.entities[k]? = some e) :
    ∃ span : Span ((g.counted p).map Emission.part),
      span.position = k ∧ span.name = e.name ∧
      e.tokens.length = (if (around [] span.before).any Opened.isConverter then 0
        else (saidValues (reaching span.inside)).length) ∧
      ((∀ q ∈ span.inside, q.opens? = none) → reaching span.inside = span.inside) ∧
      (e.value.isSpoken = true ↔ e.tokens ≠ []) := by
  obtain ⟨parts, hparts, hr⟩ := interpret_spans h
  obtain ⟨span, rfl, hholds⟩ := hr.exists_span he
  obtain ⟨es, hes, hparts⟩ := Except.bind_eq_ok.mp hparts
  obtain rfl := emissions_eq_ok hes
  have hfair : ∀ q ∈ (g.counted p).map Emission.part, q.Fair cs := by
    intro q hq
    obtain ⟨e, he, rfl⟩ := List.mem_map.mp hq
    refine ⟨Emission.legible_part (hp.clean_counted hplain hg hplainly e he), fun key hkey => ?_⟩
    obtain ⟨s, hs, rfl⟩ := List.mem_map.mp (List.mem_filter.mp he).1
    rw [Emission.control?_part] at hkey
    exact hcs key (List.mem_filterMap.mpr ⟨_, List.mem_map_of_mem hs, hkey⟩)
  have hnest : nestAll [] (((g.counted p).map Emission.part).filterMap Part.control?) = some [] := by
    rw [List.filterMap_map]
    change nestAll [] ((g.counted p).filterMap fun e => e.part.control?) = _
    simp only [Emission.control?_part]
    exact hp.nested_counted hplain hg hplainly
  obtain ⟨span', hposition, hname, hinside, hlength⟩ :=
    exists_span_before_converting hfair hnest (.of_convertParts hparts) span
  exact ⟨span', hposition, hname.trans hholds.name_eq.symm, hholds.tokens_eq ▸ hlength,
    hinside.reaching_eq, hr.value_isSpoken_iff hholds⟩

/-- An entity has as many tokens as values reach it before converting, and none if a
converter is open where it opens.  If no other entity opens in it, all values of its span
reach it.  Its value is empty exactly if it has no tokens. -/
theorem interpret_reaching {l : IntentSentences} {t : Table} {o : CompileOptions} {g : Graph}
    (hplain : PlainTemplates l t) (hwords : ∀ h ∈ l.heads ++ t.heads, h.Hears (· ≠ wildcard))
    (hg : Graph.ofSentences l t o = .ok g) {p : Path} (hp : g.Found p) {cs : Converters}
    (hcs : ∀ key, .endConvert key ∈ g.controls p → cs.OneForOne key) {cost : Option Float}
    {r : Recognition} (h : g.interpret cs p cost = .ok r) :
    ∀ k e, r.entities[k]? = some e → ∃ span : Span ((g.counted p).map Emission.part),
      span.position = k ∧ span.name = e.name ∧
      e.tokens.length = (if (around [] span.before).any Opened.isConverter then 0
        else (saidValues (reaching span.inside)).length) ∧
      ((∀ q ∈ span.inside, q.opens? = none) → reaching span.inside = span.inside) ∧
      (e.value.isSpoken = true ↔ e.tokens ≠ []) := by
  have hcrosses := hp.crosses (ascending_ofSentences hg).valid
  exact fun k e he =>
    hcrosses.delivers_reaching hplain hg (hcrosses.hearsPlainly hplain hwords hg) hcs h he

/-! ## A converter around an entity -/

theorem oneForOne_upperConverters (key : String) : upperConverters.OneForOne key := by
  refine Converters.oneForOne_of_get? fun {f values args vs} hget hvalues h => ?_
  rw [Converters.get?, upperConverters, List.lookup_cons] at hget
  split at hget
  · cases hget
    induction values generalizing vs with
    | nil =>
        cases h
        exact ⟨rfl, fun _ hv => (List.not_mem_nil hv).elim⟩
    | cons v values ih =>
        rw [Convert.each, List.mapM_cons] at h
        obtain ⟨w, hw, h⟩ := Except.bind_eq_ok.mp h
        obtain ⟨ws, hws, h⟩ := Except.bind_eq_ok.mp h
        cases h
        obtain ⟨hv, hrest⟩ := List.forall_mem_cons.mp hvalues
        obtain ⟨hlength, hspoken⟩ := ih hrest hws
        refine ⟨by rw [List.length_cons, List.length_cons, hlength],
          List.forall_mem_cons.mpr ⟨?_, hspoken⟩⟩
        obtain ⟨text, htext, hw⟩ := Except.bind_eq_ok.mp hw
        cases hw
        rw [Convert.textOf] at htext
        split at htext
        next s hdisplay =>
          cases htext
          rw [Value.isSpoken, hdisplay] at hv
          refine bne_iff_ne.mpr fun hempty => ?_
          exact bne_iff_ne.mp hv
            (congrArg some (String.upperCase_eq_empty_iff.mp (Option.some.inj hempty)))
        next => cases htext
  · cases hget

/-- `(red{hue})!upper lamp{thing}`, with one entity in a converter and one outside. -/
def redSentence : Sentence :=
  ⟨"(red\x7bhue\x7d)!upper lamp\x7bthing\x7d",
    [.seq .group "red\x7bhue\x7d" [.word "red" {} (some { name := "hue" })]
      { converters := ["upper"] } none,
      .word "lamp" {} (some { name := "thing" })]⟩

def redGraph : Graph where
  nodes := #[⟨none, #[0]⟩, ⟨none, #[1]⟩, ⟨none, #[2]⟩, ⟨none, #[3]⟩, ⟨some "red", #[4]⟩,
    ⟨none, #[5]⟩, ⟨none, #[6]⟩, ⟨none, #[7]⟩, ⟨some "lamp", #[8]⟩, ⟨none, #[9]⟩, ⟨none, #[]⟩]
  edges := #[{ source := 0, target := 1, output := "__label__Lamp" },
    { source := 1, target := 2, output := "__convert__upper" },
    { source := 2, target := 3, output := "__begin__hue" },
    { source := 3, target := 4, input := "red", output := "red" },
    { source := 4, target := 5, output := "__end__hue" },
    { source := 5, target := 6, output := "__converted__upper" },
    { source := 6, target := 7, output := "__begin__thing" },
    { source := 7, target := 8, input := "lamp", output := "lamp" },
    { source := 8, target := 9, output := "__end__thing" },
    { source := 9, target := 10 }]
  start := some 0
  final := some 10

def redPath : Path :=
  [⟨0, 1, []⟩, ⟨1, 2, []⟩, ⟨2, 3, []⟩, ⟨3, 4, ["red"]⟩, ⟨4, 5, []⟩, ⟨5, 6, []⟩, ⟨6, 7, []⟩,
    ⟨7, 8, ["lamp"]⟩, ⟨8, 9, []⟩, ⟨9, 10, []⟩]

theorem ofSentences_redSentence :
    Graph.ofSentences [("Lamp", [redSentence])] [] = .ok redGraph := by
  have hunfold : redSentence.unfold [] "Lamp" =
      .seq .group [.seq .group [.word "red" {} (some { name := "hue" })]
        { converters := ["upper"] } none, .word "lamp" {} (some { name := "thing" })] {} none := by
    simp [Sentence.unfold, Sentence.toExpr, redSentence, unfold, unfoldAll]
  exact (ofSentences_singleton hunfold).trans rfl

/-- The word of the first entity is said after its end. -/
def redRecognition : Recognition where
  intent := "Lamp"
  confidence := 1
  entities :=
    [{ name := "hue", value := .text "", rawValue := "", source := none, first := 0
       last := 0, rawFirst := 0, rawLast := 0, tokens := [], rawTokens := [] },
      { name := "thing", value := .text "lamp", rawValue := "lamp", source := none, first := 4
        last := 8, rawFirst := 4, rawLast := 8, tokens := [.text "lamp"], rawTokens := ["lamp"] }]
  text := "RED lamp"
  rawText := "red lamp"
  tokens := [.text "RED", .text "lamp"]
  rawTokens := ["red", "lamp"]

def redParts : List Part := (redGraph.counted redPath).map Emission.part

theorem exactPaths_redGraph : redGraph.exactPaths {} ["red", "lamp"] = [redPath] := by
  decide +kernel

theorem interpret_redGraph : redGraph.interpret upperConverters redPath = .ok redRecognition := rfl

theorem interpret_redPath :
    redPath ∈ redGraph.exactPaths {} ["red", "lamp"] ∧
      (∀ h ∈ IntentSentences.heads [("Lamp", [redSentence])] ++ Table.heads [],
        h.Hears (· ≠ wildcard)) ∧
      (∀ key, .endConvert key ∈ redGraph.controls redPath → upperConverters.OneForOne key) ∧
      redGraph.interpret upperConverters redPath = .ok redRecognition ∧
      ∃ hue thing, redRecognition.entities = [hue, thing] ∧
        ∃ span span' : Span redParts, span.name = "hue" ∧ span'.name = "thing" ∧
          hue.tokens.length = (if (around [] span.before).any Opened.isConverter then 0
            else (saidValues (reaching span.inside)).length) ∧
          thing.tokens.length = (if (around [] span'.before).any Opened.isConverter then 0
            else (saidValues (reaching span'.inside)).length) := by
  have hexact : redPath ∈ redGraph.exactPaths {} ["red", "lamp"] := by
    rw [exactPaths_redGraph]
    exact List.mem_singleton_self _
  have hwords : ∀ h ∈ IntentSentences.heads [("Lamp", [redSentence])] ++ Table.heads [],
      h.Hears (· ≠ wildcard) := by
    unfold Head.Hears
    decide
  have hones : ∀ key, .endConvert key ∈ redGraph.controls redPath →
      upperConverters.OneForOne key := fun key _ => oneForOne_upperConverters key
  have hentities := interpret_reaching (by decide) hwords ofSentences_redSentence (.exact hexact)
    hones interpret_redGraph
  obtain ⟨span, -, hname, hlength, -⟩ := hentities 0 _ rfl
  obtain ⟨span', -, hname', hlength', -⟩ := hentities 1 _ rfl
  exact ⟨hexact, hwords, hones, interpret_redGraph, _, _, rfl, span, span', hname, hname',
    hlength, hlength'⟩

/-- The word is in the span of the entity. -/
def hueSpan : Span redParts where
  name := "hue"
  before := [⟨"", .control "__convert__upper", []⟩]
  opening := ⟨"", .control "__begin__hue", []⟩
  inside := [⟨"red", .value (.text "red"), ["red"]⟩]
  closing := ⟨"", .control "__end__hue", []⟩
  after := [⟨"", .control "__converted__upper", []⟩, ⟨"", .control "__begin__thing", []⟩,
    ⟨"lamp", .value (.text "lamp"), ["lamp"]⟩, ⟨"", .control "__end__thing", []⟩]
  parts_eq := rfl
  opens := rfl
  nested := .single ⟨rfl, rfl⟩
  closes := rfl

/-- An entity in a converter has no tokens and an empty value, although there is a word in its
span and the converter gives one. -/
theorem hue_empty_redGraph :
    PlainTemplates [("Lamp", [redSentence])] [] ∧
      Graph.ofSentences [("Lamp", [redSentence])] [] = .ok redGraph ∧
      redGraph.exactPaths {} ["red", "lamp"] = [redPath] ∧
      (∀ key, upperConverters.OneForOne key) ∧
      redGraph.interpret upperConverters redPath = .ok redRecognition ∧
      ∃ e, redRecognition.entities[hueSpan.position]? = some e ∧ e.name = hueSpan.name ∧
        saidValues hueSpan.inside = [.text "red"] ∧ e.tokens = [] ∧ e.value = .text "" :=
  ⟨by decide, ofSentences_redSentence, exactPaths_redGraph, oneForOne_upperConverters,
    interpret_redGraph, _, rfl, rfl, rfl, rfl, rfl⟩

end Utterance
