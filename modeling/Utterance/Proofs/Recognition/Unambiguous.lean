import Utterance.Proofs.Compile.Enumeration
import Utterance.Proofs.Recognition.Evaluation
import Utterance.Recognize

/-!
# Templates that are not ambiguous

What counts along a path that is taken word for word are the emissions of its marks
(`Follows.filter_counts`), so the path means what its marks come to, whatever else
the graph holds (`Crosses.interpret_of_marks`, `Crosses.interpret_eq`).  Words that only one
reading of the templates hears are found on one path only and have one meaning
(`recognize_of_reading`), so all words do where no two readings are heard alike
(`recognize_reading`); words that no reading hears have none (`recognize_eq_nil`).
-/

namespace Utterance

open Utterance.Graph

/-! ## Emissions of marks -/

/-- What an edge with the mark gives where it is taken word for word. -/
def Mark.emission (m : Mark) : Emission :=
  ⟨m.input, m.label?.getD "", if m.input = "" then [] else [m.input]⟩

/-- What marks give, as far as it counts. -/
def emissionsOf (ms : List Mark) : List Emission := (ms.map Mark.emission).filter Emission.counts

theorem emissionsOf_append (ms ns : List Mark) :
    emissionsOf (ms ++ ns) = emissionsOf ms ++ emissionsOf ns := by
  rw [emissionsOf, List.map_append, List.filter_append]
  rfl

theorem Mark.emission_silent : Mark.silent.emission = ⟨"", "", []⟩ := by
  rw [emission, label?_silent]
  rfl

theorem emissionsOf_spelled (m : Mark) :
    emissionsOf m.spelled = [m.emission].filter Emission.counts := by
  rw [emissionsOf, Mark.spelled]
  split
  next h => rw [h, Mark.emission_silent]; rfl
  next => rfl

/-- A step on which no wildcard is said gives the emission of its mark. -/
theorem Graph.emissionAt_eq {g : Graph} {a b : Nat} {e : Edge} (he : g.edge? a b = some e)
    (hg : g.Ascending) (hlt : a < b) (hne : e.output ≠ wildcard) :
    g.emissionAt ⟨a, b, e.words⟩ = e.mark.emission := by
  have hlabel : g.label? ⟨a, b, e.words⟩ = e.mark.label? := by
    rw [label?, he, Option.bind_some, Edge.spoken_of_ne hne]
    rfl
  rw [emissionAt, hlabel, hg.heard (mark?_of_edge? he) hlt, Mark.emission, Edge.words]
  rfl

/-- Word for word the emissions that count along a path are those of its marks. -/
theorem Graph.Follows.filter_counts {g : Graph} {a b : Nat} {p : Path}
    (hp : g.Follows Edge.Exactly a p b) (hg : g.Ascending) (hwild : g.Inputs (· ≠ wildcard))
    (hfixed : ∀ m ∈ g.spelled p, m.output ≠ wildcard) :
    (p.map g.emissionAt).filter Emission.counts = emissionsOf (g.spelled p) := by
  induction hp with
  | nil => rfl
  | @cons a b c e matched p he hmatched hp ih =>
      have hne := output_ne (.cons he hmatched hp) hg hwild hfixed _ List.mem_cons_self e he
      have hm := mark?_of_edge? he
      obtain rfl : matched = e.words := hmatched
      rcases hg.lt_or_loop hm with hlt | ⟨-, hloop⟩
      · rw [spelled_cons_of_lt hm hlt] at hfixed ⊢
        rw [emissionsOf_append, emissionsOf_spelled, List.map_cons, emissionAt_eq he hg hlt hne,
          ← List.singleton_append, List.filter_append,
          ih fun m hm => hfixed m (List.mem_append_right _ hm)]
      · exact absurd (congrArg Mark.input hloop) (hwild.of_edge? he)

/-! ## The meaning of emissions -/

/-- The recognition of an intent that emissions stand for, all of which count. -/
def interpretEmissions (cs : Converters) (intent : String) (es : List Emission)
    (cost : Option Float := none) : Except InterpretError Recognition := do
  let parts ← convertParts cs [] es
  let speech ← Speech.ofParts parts
  let text ← shownAll speech.tokens
  pure
    { intent
      confidence := confidence cost speech.rawTokens.length
      entities := speech.entities
      text
      rawText := spaced speech.rawTokens
      tokens := speech.tokens
      rawTokens := speech.rawTokens }

theorem Graph.interpret_eq {g : Graph} {p : Path} {es : List Emission} (h : g.emissions p = .ok es)
    (cs : Converters) (cost : Option Float) :
    g.interpret cs p cost =
      interpretEmissions cs (intentOf es) (es.filter Emission.counts) cost := by
  unfold Graph.interpret
  rw [h]
  rfl

/-- A recognizer that is not tolerant interprets the exact paths. -/
theorem Graph.candidates_strict (g : Graph) (tokens : List String) :
    g.candidates ({ tolerant := false } : RecognizerConfig).options tokens =
      (g.exactPaths {} tokens).map fun p => (p, none) := by
  have hstopWords : (({ tolerant := false } : RecognizerConfig).options).stopWords.isEmpty = true :=
    rfl
  have hsparse : g.exactOrSparse ({ tolerant := false } : RecognizerConfig).options tokens =
      g.exactPaths {} tokens := by
    unfold exactOrSparse
    split
    next hnil => rw [hstopWords, if_pos rfl]; exact hnil.symm
    next => rfl
  exact congrArg (List.map _) hsparse

/-! ## Paths that are taken word for word -/

section

variable {l : IntentSentences} {t : Table} {o : CompileOptions} {g : Graph}
  (hplain : PlainTemplates l t) (hfixed : ∀ h ∈ l.heads ++ t.heads, h.Fixed)
  (hexpand : o.expandSlots = true) (hg : Graph.ofSentences l t o = .ok g)
include hplain hfixed hexpand hg

omit hplain hexpand in
theorem Graph.inputs_of_fixed : g.Inputs (· ≠ wildcard) := inputs_ofSentences (by decide)
  (fun h hh text htext => hfixed h hh text (List.mem_append_left _ (by simp_all))) hg

omit hplain hexpand in
/-- A path means what the marks after its intent come to, if these are tame and say no
wildcard. -/
theorem Graph.Crosses.interpret_of_marks {p : Path} (hp : g.Crosses Edge.Exactly p)
    {intent : String} {ms : List Mark} (hspelled : g.spelled p = intentMark intent :: ms)
    (htame : ∀ m ∈ ms, m.Tame) (hne : ∀ m ∈ ms, m.output ≠ wildcard) (cs : Converters)
    (cost : Option Float) :
    g.interpret cs p cost = interpretEmissions cs intent (emissionsOf ms) cost := by
  have hasc := ascending_ofSentences hg
  have hinputs := inputs_of_fixed hfixed hg
  obtain ⟨first, rest, _, _, rfl, -, hfirst, hrest, rfl⟩ := hp.exists_entry hg hspelled
  have hcarries := hrest.carries hasc htame fun s hs e he hwild =>
    absurd hwild (hrest.output_ne hasc hinputs hne s hs e he)
  obtain ⟨hemissions, hcounts, hnone⟩ := emissions_after_intent hfirst hcarries.said
  have hentered : (g.emissionAt first).intent? = some intent := by
    rw [Emission.intent?, emissionAt, hfirst]
    exact Label.intent?_text intent
  rw [Graph.interpret_eq hemissions, hcounts, List.map_cons, intentOf_cons hnone hentered,
    hrest.filter_counts hasc hinputs hne]

/-- In plain templates all marks are tame. -/
theorem Graph.Crosses.interpret_eq {p : Path} (hp : g.Crosses Edge.Exactly p) {intent : String}
    {ms : List Mark} (hspelled : g.spelled p = intentMark intent :: ms) (cs : Converters)
    (cost : Option Float) :
    g.interpret cs p cost = interpretEmissions cs intent (emissionsOf ms) cost := by
  obtain ⟨_, _, _, _, _, rfl, -, -, -, hbalanced, hmarks⟩ := hp.exists_steps hplain hg
  rw [hspelled] at hmarks
  obtain ⟨-, rfl⟩ := List.cons.inj hmarks
  -- the marks are those of a reading, which holds no wildcard
  obtain ⟨start, final, hstart, hfinal, hfollows⟩ := hp
  obtain rfl : 0 = start := Option.some.inj ((start_ofSentences hg).symm.trans hstart)
  obtain ⟨intent', sentences, hmem, s, hs, r, hr, hreading⟩ :=
    (route_ofSentences hg hexpand hfinal).mp (hfollows.route (ascending_ofSentences hg))
  rw [hspelled] at hreading
  have hall : r.All (fun h => h.Plain ∧ h.Fixed) :=
    hr.all (fun h hh => ⟨hplain h (List.mem_append_right _ hh),
      hfixed h (List.mem_append_right _ hh)⟩) fun h hh =>
      ⟨hplain h (List.mem_append_left _ (IntentSentences.mem_heads hmem hs hh)),
        hfixed h (List.mem_append_left _ (IntentSentences.mem_heads hmem hs hh))⟩
  have hne : ∀ m ∈ r.marks false, m.output ≠ wildcard := Reading.output_ne_of_mem_marks hall
  rw [← (List.cons.inj hreading).2] at hne
  exact interpret_of_marks hfixed hg ⟨0, final, hstart, hfinal, hfollows⟩ hspelled hbalanced.tame
    hne cs cost

omit hplain hexpand in
/-- The exact search finds paths that match the input word for word. -/
theorem Graph.crosses_of_mem_exactPaths {tokens : List String} (hne : tokens ≠ []) {p : Path}
    (hp : p ∈ g.exactPaths {} tokens) : g.Crosses Edge.Exactly p := by
  have hinputs := inputs_of_fixed hfixed hg
  obtain ⟨final, hfinal, _⟩ := ofSentences_extends hg
  have hstart := start_ofSentences hg
  exact ⟨0, final, hstart, hfinal, ((mem_exactPaths_iff_exactly (ascending_ofSentences hg) hinputs
    hstart hfinal hne).mp hp).1⟩

omit hplain in
/-- There is one path for each reading that hears the tokens. -/
theorem Graph.exactPaths_perm_of_fixed (hfilled : ∀ p ∈ l, ∀ s ∈ p.2, (s.unfold t p.1).Filled)
    {tokens : List String} (hne : tokens ≠ []) :
    ((g.exactPaths {} tokens).map g.spelled).Perm
      (((readingsOfIntents t l).filter fun q => q.2.heard = tokens).map intentMarks) :=
  exactPaths_perm_readings (fun h hh hword => hfixed h hh wildcard
    (List.mem_append_left _ (hword ▸ List.mem_singleton_self _)) rfl) hexpand hg hfilled hne

variable (hfilled : ∀ p ∈ l, ∀ s ∈ p.2, (s.unfold t p.1).Filled)
include hfilled

omit hplain in
/-- The words that a single reading hears are recognized in one way, which is what the paths that
spell the reading mean. -/
theorem recognize_of_reading {tokens : List String} (hne : tokens ≠ []) {q : String × Reading}
    (hone : ((readingsOfIntents t l).filter fun q' => q'.2.heard = tokens) = [q])
    {cs : Converters} {r : Recognition}
    (hr : ∀ p, g.Crosses Edge.Exactly p → g.spelled p = intentMarks q →
      g.interpret cs p none = .ok r) :
    g.recognize ({ tolerant := false } : RecognizerConfig).options cs tokens = .ok [r] := by
  have hperm := exactPaths_perm_of_fixed hfixed hexpand hg hfilled hne
  rw [hone, List.map_singleton] at hperm
  obtain ⟨p, hp, hspelled⟩ := List.map_eq_singleton_iff.mp (List.perm_singleton.mp hperm)
  have hcrosses : g.Crosses Edge.Exactly p :=
    crosses_of_mem_exactPaths hfixed hg hne (hp ▸ List.mem_singleton_self p)
  rw [recognize, candidates_strict, hp, List.map_singleton, interpretAll,
    hr p hcrosses hspelled]
  rfl

/-- The words of a reading that is not heard like any other are recognized in one way, which is
what the reading comes to. -/
theorem recognize_reading (hnodup : ((readingsOfIntents t l).map fun q => q.2.heard).Nodup)
    {q : String × Reading} (hq : q ∈ readingsOfIntents t l) (hne : q.2.heard ≠ [])
    {cs : Converters} {r : Recognition}
    (hr : interpretEmissions cs q.1 (emissionsOf (q.2.marks false)) = .ok r) :
    g.recognize ({ tolerant := false } : RecognizerConfig).options cs q.2.heard = .ok [r] := by
  -- no other reading is heard like this one
  have hone : ((readingsOfIntents t l).filter fun q' => q'.2.heard = q.2.heard).Perm [q] := by
    refine (List.perm_ext_iff_of_nodup (hnodup.of_map.filter _) (List.nodup_singleton q)).mpr
      fun q' => ?_
    rw [List.mem_filter, List.mem_singleton, decide_eq_true_eq]
    refine ⟨fun ⟨hq', hheard⟩ => List.inj_on_of_nodup_map hnodup hq' hq hheard, ?_⟩
    rintro rfl
    exact ⟨hq, rfl⟩
  refine recognize_of_reading hfixed hexpand hg hfilled hne (List.perm_singleton.mp hone)
    fun p hp hspelled => ?_
  rw [hp.interpret_eq hplain hfixed hexpand hg hspelled]
  exact hr

omit hplain in
/-- Words that no reading hears are not recognized. -/
theorem recognize_eq_nil {tokens : List String} (hne : tokens ≠ [])
    (h : ∀ q ∈ readingsOfIntents t l, q.2.heard ≠ tokens) (cs : Converters) :
    g.recognize ({ tolerant := false } : RecognizerConfig).options cs tokens = .ok [] := by
  have hnone : ((readingsOfIntents t l).filter fun q => q.2.heard = tokens) = [] :=
    List.filter_eq_nil_iff.mpr fun q hq => by simpa using h q hq
  have hperm := exactPaths_perm_of_fixed hfixed hexpand hg hfilled hne
  rw [hnone, List.map_nil, List.perm_nil, List.map_eq_nil_iff] at hperm
  rw [recognize, candidates_strict, hperm]
  rfl

end

end Utterance
