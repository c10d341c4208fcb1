import Mathlib.Data.List.Basic
import Mathlib.Data.List.Flatten
import Utterance.Proofs.Recognition.Offsets

/-!
# Entities inside entities

What is heard and said goes to the innermost open entity alone.  So an entity holds
what is taken down on the outermost level of its span, and that is all of the span
exactly if the entities inside take down nothing (`interpret_innermost`).  Its
offsets include them in any case.
-/

namespace Utterance

theorem outermost_sublist (l : List Part) : (outermost l).Sublist l := by
  have hsub := (List.filter_sublist (p := fun q => q.2 == 0) (l := depths 0 l)).map Prod.fst
  rwa [depths_map_fst] at hsub

/-- Each part is either on the outermost level or enclosed. -/
theorem outermost_append_enclosed_perm (l : List Part) :
    (outermost l ++ enclosed l).Perm l := by
  have hperm := (List.filter_append_perm (fun q => q.2 == 0) (depths 0 l)).map Prod.fst
  rwa [List.map_append, depths_map_fst] at hperm

/-- The outermost level has everything exactly if what is enclosed has nothing. -/
theorem flatMap_outermost_eq_iff {α : Type} (f : Part → List α) (l : List Part) :
    (outermost l).flatMap f = l.flatMap f ↔ (enclosed l).flatMap f = [] := by
  have hsub := (outermost_sublist l).flatMap f
  have hlength := ((outermost_append_enclosed_perm l).flatMap_right f).length_eq
  rw [List.flatMap_append, List.length_append] at hlength
  refine ⟨fun h => ?_, fun h => hsub.eq_of_length ?_⟩
  · rw [h] at hlength
    exact List.length_eq_zero_iff.mp (by omega)
  · rw [h] at hlength
    exact hlength

theorem saidIn_eq_flatMap (l : List Part) :
    saidIn l = l.flatMap fun p => p.spoken.filter Value.isSpoken := List.filter_flatMap

namespace Span

variable {parts : List Part} (span : Span parts)

theorem saidOutermost_eq_iff :
    span.saidOutermost = span.said ↔ saidIn (enclosed span.inside) = [] := by
  rw [saidOutermost, said, saidIn_eq_flatMap, saidIn_eq_flatMap, saidIn_eq_flatMap]
  exact flatMap_outermost_eq_iff _ _

theorem heardOutermost_eq_iff :
    span.heardOutermost = span.heard ↔ heardIn (enclosed span.inside) = [] := by
  rw [heardOutermost, heard, heardIn_append, heardIn_append, List.append_left_inj]
  exact flatMap_outermost_eq_iff _ _

end Span

/-- An entity holds what is said and heard in its span while it is the innermost open
one.  This is all that is said there exactly if nothing is said in the entities inside,
and all that is heard exactly if nothing is heard in them. -/
theorem interpret_innermost {g : Graph} {cs : Converters} {p : Path} {cost : Option Float}
    {r : Recognition} (h : g.interpret cs p cost = .ok r) :
    ∃ parts, g.parts cs p = .ok parts ∧
      parts.filterMap Part.control? = (g.controls p).filter Control.isEntity ∧
      ∀ k e, r.entities[k]? = some e → ∃ span : Span parts,
        span.position = k ∧ span.name = e.name ∧
        r.tokens = span.saidBefore ++ span.said ++ saidIn span.after ∧
        r.rawTokens = span.heardBefore ++ span.heard ++ heardIn span.after ∧
        e.tokens = span.saidOutermost ∧ e.rawTokens = span.heardOutermost ∧
        (e.tokens = span.said ↔ saidIn (enclosed span.inside) = []) ∧
        (e.rawTokens = span.heard ↔ heardIn (enclosed span.inside) = []) := by
  obtain ⟨parts, hparts, hr⟩ := interpret_spans h
  refine ⟨parts, hparts, Graph.controls_parts hparts, fun k e hk => ?_⟩
  obtain ⟨span, hposition, he⟩ := hr.exists_span hk
  refine ⟨span, hposition, he.name_eq.symm, hr.tokens_eq.trans span.saidIn_eq,
    hr.rawTokens_eq.trans span.heardIn_eq, he.tokens_eq, he.rawTokens_eq, ?_, ?_⟩
  · rw [he.tokens_eq, span.saidOutermost_eq_iff]
  · rw [he.rawTokens_eq, span.heardOutermost_eq_iff]

/-- `(red{hue} lamp){thing}`, an entity with another one inside. -/
def hueSentence : Sentence :=
  ⟨"(red\x7bhue\x7d lamp)\x7bthing\x7d",
    [.seq .group "red\x7bhue\x7d lamp"
      [.word "red" {} (some { name := "hue" }), .plain "lamp"] {} (some { name := "thing" })]⟩

def hueGraph : Graph where
  nodes := #[⟨none, #[0]⟩, ⟨none, #[1]⟩, ⟨none, #[2]⟩, ⟨none, #[3]⟩, ⟨some "red", #[4]⟩,
    ⟨none, #[5]⟩, ⟨some "lamp", #[6]⟩, ⟨none, #[7]⟩, ⟨none, #[]⟩]
  edges := #[{ source := 0, target := 1, output := "__label__Lamp" },
    { source := 1, target := 2, output := "__begin__thing" },
    { source := 2, target := 3, output := "__begin__hue" },
    { source := 3, target := 4, input := "red", output := "red" },
    { source := 4, target := 5, output := "__end__hue" },
    { source := 5, target := 6, input := "lamp", output := "lamp" },
    { source := 6, target := 7, output := "__end__thing" },
    { source := 7, target := 8 }]
  start := some 0
  final := some 8

def huePath : Path :=
  [⟨0, 1, []⟩, ⟨1, 2, []⟩, ⟨2, 3, []⟩, ⟨3, 4, ["red"]⟩, ⟨4, 5, []⟩, ⟨5, 6, ["lamp"]⟩, ⟨6, 7, []⟩,
    ⟨7, 8, []⟩]

theorem ofSentences_hueSentence :
    Graph.ofSentences [("Lamp", [hueSentence])] [] = .ok hueGraph := by
  have hunfold : hueSentence.unfold [] "Lamp" =
      .seq .group [.seq .group
        [.word "red" {} (some { name := "hue" }), .word "lamp" {} none] {}
        (some { name := "thing" })] {} none := by
    simp [Sentence.unfold, Sentence.toExpr, hueSentence, unfold, unfoldAll, Expr.plain]
  exact (ofSentences_singleton hunfold).trans rfl

/-- The words of the path, with an entity in an entity. -/
def hueRecognition : Recognition where
  intent := "Lamp"
  confidence := 1
  entities :=
    [{ name := "hue", value := .text "red", rawValue := "red", source := none, first := 0
       last := 3, rawFirst := 0, rawLast := 3, tokens := [.text "red"], rawTokens := ["red"] },
      { name := "thing", value := .text "lamp", rawValue := "lamp", source := none, first := 0
        last := 8, rawFirst := 0, rawLast := 8, tokens := [.text "lamp"], rawTokens := ["lamp"] }]
  text := "red lamp"
  rawText := "red lamp"
  tokens := [.text "red", .text "lamp"]
  rawTokens := ["red", "lamp"]

theorem interpret_hueGraph : hueGraph.interpret {} huePath = .ok hueRecognition := rfl

theorem interpret_innermost_huePath :
    hueGraph.interpret {} huePath = .ok hueRecognition ∧
      ∃ hue thing, hueRecognition.entities = [hue, thing] ∧
        ∃ parts, ∃ span span' : Span parts, span.position = 0 ∧ span'.position = 1 ∧
          hue.tokens = span.saidOutermost ∧ thing.tokens = span'.saidOutermost ∧
          (hue.tokens = span.said ↔ saidIn (enclosed span.inside) = []) ∧
          (thing.tokens = span'.said ↔ saidIn (enclosed span'.inside) = []) := by
  obtain ⟨parts, -, -, hentities⟩ := interpret_innermost interpret_hueGraph
  obtain ⟨span, hposition, -, -, -, htokens, -, hall, -⟩ := hentities 0 _ rfl
  obtain ⟨span', hposition', -, -, -, htokens', -, hall', -⟩ := hentities 1 _ rfl
  exact ⟨interpret_hueGraph, _, _, rfl, parts, span, span', hposition, hposition', htokens, htokens',
    hall, hall'⟩

def hueParts : List Part :=
  [⟨"", .control "__begin__thing", []⟩, ⟨"", .control "__begin__hue", []⟩,
    ⟨"red", .value (.text "red"), ["red"]⟩, ⟨"", .control "__end__hue", []⟩,
    ⟨"lamp", .value (.text "lamp"), ["lamp"]⟩, ⟨"", .control "__end__thing", []⟩]

/-- All parts are in the span of the outer entity. -/
def thingSpan : Span hueParts where
  name := "thing"
  before := []
  opening := ⟨"", .control "__begin__thing", []⟩
  inside :=
    [⟨"", .control "__begin__hue", []⟩, ⟨"red", .value (.text "red"), ["red"]⟩,
      ⟨"", .control "__end__hue", []⟩, ⟨"lamp", .value (.text "lamp"), ["lamp"]⟩]
  closing := ⟨"", .control "__end__thing", []⟩
  after := []
  parts_eq := rfl
  opens := rfl
  nested := .entity rfl
    (.single ⟨rfl, rfl⟩ : WellNested [⟨"red", .value (.text "red"), ["red"]⟩]) rfl
    (.single ⟨rfl, rfl⟩)
  closes := rfl

/-- The outer entity lacks the word of the inner one, though it is in its span and its
offsets include it. -/
theorem thing_not_all_hueGraph :
    Graph.ofSentences [("Lamp", [hueSentence])] [] = .ok hueGraph ∧
      hueGraph.exactPaths {} ["red", "lamp"] = [huePath] ∧
      hueGraph.interpret {} huePath = .ok hueRecognition ∧
      hueGraph.parts {} huePath = .ok hueParts ∧
      ∃ e, hueRecognition.entities[thingSpan.position]? = some e ∧ e.name = thingSpan.name ∧
        cut? hueRecognition.text e.first e.last = some "red lamp" ∧
        thingSpan.said = [.text "red", .text "lamp"] ∧ e.tokens = [.text "lamp"] ∧
        thingSpan.heard = ["red", "lamp"] ∧ e.rawTokens = ["lamp"] :=
  ⟨ofSentences_hueSentence, by decide, interpret_hueGraph, rfl, _, rfl, rfl, rfl, rfl, rfl,
    rfl, rfl⟩

end Utterance
