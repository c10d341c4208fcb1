import Utterance.Proofs.Recognition.Delivery
import Utterance.Proofs.Recognition.Unambiguous
import Utterance.Proofs.Search.Optional
import Utterance.Proofs.Search.Simple

/-!
# Samples are recognized

A sample is a simple path.  It matches nothing, and its words are those of the graph.  An
exact search for these words finds the same path, on which every word is matched
(`Graph.voiced`).  Without wildcards the emissions of the two paths differ only in what was
matched: on the one nothing, on the other the word of each emission (`Emission.voiced`).

Matched tokens take a way of their own through the frames of converters, and where a
converter is closed, words, values and matches are lined up anew, which need not be where
they were.  Still every word comes to stand beside its match (`Echoes.close`), so the parts
differ in the same way (`echoes_convertParts`).  What is heard in a part is what it matched
or else its word, so both are taken down alike (`interpretEmissions_voiced`).
-/

namespace Utterance

/-! ## Words and matches -/

/-- The tokens matched where a word is heard as it is written. -/
def heardAs (word : String) : List String := if word.isEmpty then [] else [word]

def Emission.voiced (e : Emission) : Emission := { e with matched := heardAs e.raw }

def Part.voiced (p : Part) : Part := { p with matched := heardAs p.raw }

def Frame.voiced (f : Frame) : Frame := { f with parts := f.parts.map Part.voiced }

@[simp] theorem Frame.key_voiced (f : Frame) : f.voiced.key = f.key := rfl

theorem Frame.voiced_add (f : Frame) (parts : List Part) :
    (f.add parts).voiced = f.voiced.add (parts.map Part.voiced) := by
  simp [add, voiced]

/-- Nothing is heard besides the word, or in its place. -/
theorem Part.heard_voiced {p : Part} (hp : p.matched = []) : p.voiced.heard = p.heard := by
  unfold heard voiced heardAs
  rw [hp]
  by_cases hempty : p.raw.isEmpty = true <;> simp [hempty]

/-! ## Closing a converter -/

theorem Frame.raws_voiced (f : Frame) : f.voiced.raws = f.raws := by
  simp [raws, voiced, Function.comp_def, Part.voiced]

theorem Frame.values_voiced (f : Frame) : f.voiced.values = f.values := by
  simp [values, voiced, List.filterMap_map, Function.comp_def, Part.voiced]

/-- Beside the words stand as many matches. -/
theorem Frame.matched_voiced (f : Frame) : f.voiced.matched = f.raws.map fun w => [w] := by
  unfold matched raws voiced
  induction f.parts with
  | nil => rfl
  | cons p parts ih =>
      simp only [List.map_cons, List.filter_cons] at ih ⊢
      rw [ih, Part.voiced, heardAs]
      cases p.raw.isEmpty <;> rfl

theorem Frame.matched_eq_nil {f : Frame} (hf : ∀ p ∈ f.parts, p.matched = []) :
    f.matched = [] := by
  rw [matched, List.filter_eq_nil_iff]
  intro m hm
  obtain ⟨p, hp, rfl⟩ := List.mem_map.mp hm
  simp [hf p hp]

/-- Words and values are lined up as without the matches, and every word beside its match. -/
theorem Frame.align_voiced {raws : List String} (hraws : ∀ w ∈ raws, w.isEmpty = false)
    (values : List Value) :
    align raws values (raws.map fun w => [w]) = (align raws values []).map Part.voiced := by
  have hlength : max raws.length (max values.length (raws.map fun w => [w]).length) =
      max raws.length (max values.length ([] : List (List String)).length) := by
    simp only [List.length_map, List.length_nil]
    omega
  rw [align, align, hlength, List.map_map]
  refine List.map_congr_left fun i _ => ?_
  simp only [Function.comp_apply, Part.voiced, List.getD_eq_getElem?_getD, List.getElem?_map]
  cases hi : raws[i]? with
  | none => simp [heardAs]
  | some w => simp [heardAs, hraws w (List.mem_of_getElem? hi)]

/-- The two results are the same error, or parts that match nothing and the same parts with
their words matched. -/
structure Echoes (x y : Except InterpretError (List Part)) : Prop where
  eq : y = x.map (List.map Part.voiced)
  unmatched : ∀ parts, x = .ok parts → ∀ p ∈ parts, p.matched = []

namespace Echoes

theorem error (err : InterpretError) : Echoes (.error err) (.error err) := ⟨rfl, nofun⟩

theorem nil : Echoes (.ok []) (.ok []) := by
  refine ⟨rfl, fun parts h => ?_⟩
  cases h
  exact fun _ hp => (List.not_mem_nil hp).elim

theorem append {x y : Except InterpretError (List Part)} (h : Echoes x y) {parts : List Part}
    (hparts : ∀ p ∈ parts, p.matched = []) :
    Echoes (x.map (parts ++ ·)) (y.map (parts.map Part.voiced ++ ·)) := by
  rw [h.eq]
  cases x with
  | error err => exact error err
  | ok later =>
      refine ⟨congrArg Except.ok List.map_append.symm, fun all hall => ?_⟩
      cases hall
      exact List.forall_mem_append.mpr ⟨hparts, h.unmatched later rfl⟩

theorem close (cs : Converters) {f : Frame} (hf : ∀ p ∈ f.parts, p.matched = []) :
    Echoes (f.close cs) (f.voiced.close cs) := by
  have hraws : ∀ w ∈ f.raws, w.isEmpty = false := fun w hw => by
    simpa using (List.mem_filter.mp hw).2
  have hname : f.voiced.name = f.name := rfl
  have hargs : f.voiced.args = f.args := rfl
  unfold Frame.close
  rw [hname, hargs, f.values_voiced, f.raws_voiced, f.matched_voiced, Frame.matched_eq_nil hf,
    f.key_voiced]
  cases cs.get? f.name with
  | none => exact error _
  | some converter =>
      simp only
      rcases converter f.values f.args with err | values
      · cases err <;> exact error _
      · refine ⟨congrArg Except.ok (Frame.align_voiced hraws values), fun parts h => ?_⟩
        cases h
        intro p hp
        obtain ⟨i, -, rfl⟩ := List.mem_map.mp hp
        rfl

end Echoes

/-! ## All parts -/

/-- Converters let words and matches pass alike. -/
theorem echoes_convertParts (cs : Converters) : ∀ {es : List Emission} (frames : List Frame),
    (∀ e ∈ es, e.matched = []) → (∀ f ∈ frames, ∀ p ∈ f.parts, p.matched = []) →
    Echoes (convertParts cs frames es)
      (convertParts cs (frames.map Frame.voiced) (es.map Emission.voiced))
  | [], [], _, _ => by
      unfold convertParts
      exact .nil
  | [], f :: outer, _, _ => by
      unfold convertParts
      exact .error _
  | e :: rest, frames, hes, hframes => by
      obtain ⟨he, hrest⟩ := List.forall_mem_cons.mp hes
      have hnone : ∀ f ∈ ([] : List Frame), ∀ p ∈ f.parts, p.matched = [] :=
        List.forall_mem_nil _
      have hpart : ∀ p ∈ [e.part], p.matched = [] := List.forall_mem_singleton.mpr he
      rw [List.map_cons]
      rcases Control.converts_or_passes (Control.read? e.label) with ⟨key, h⟩ | ⟨key, h⟩ | h
      · have h' : Control.read? e.voiced.label = some (.beginConvert key) := h
        rw [convertParts_begin h, convertParts_begin h']
        refine echoes_convertParts cs ({ key } :: frames) hrest ?_
        exact List.forall_mem_cons.mpr ⟨fun _ hp => (List.not_mem_nil hp).elim, hframes⟩
      · have h' : Control.read? e.voiced.label = some (.endConvert key) := h
        cases frames with
        | nil =>
            rw [List.map_nil, convertParts_end_nil h, convertParts_end_nil h']
            exact .error _
        | cons f outer =>
            obtain ⟨hf, houter⟩ := List.forall_mem_cons.mp hframes
            rw [List.map_cons, convertParts_end h, convertParts_end h', f.key_voiced]
            split
            · exact .error _
            · have hclose := Echoes.close cs hf
              rw [hclose.eq]
              cases hparts : f.close cs with
              | error err => exact .error err
              | ok parts =>
                  have hunmatched := hclose.unmatched parts hparts
                  cases outer with
                  | nil => exact (echoes_convertParts cs [] hrest hnone).append hunmatched
                  | cons g outer =>
                      obtain ⟨hg, houter⟩ := List.forall_mem_cons.mp houter
                      have ih := echoes_convertParts cs (g.add parts :: outer) hrest
                        (List.forall_mem_cons.mpr
                          ⟨List.forall_mem_append.mpr ⟨hg, hunmatched⟩, houter⟩)
                      rw [List.map_cons, Frame.voiced_add] at ih
                      exact ih
      · have h' : Control.Passes (Control.read? e.voiced.label) := h
        cases frames with
        | nil =>
            rw [List.map_nil, convertParts_passes_nil h, convertParts_passes_nil h']
            exact (echoes_convertParts cs [] hrest hnone).append hpart
        | cons f outer =>
            obtain ⟨hf, houter⟩ := List.forall_mem_cons.mp hframes
            have hsaid : e.voiced.part.said = e.part.said := rfl
            rw [List.map_cons, convertParts_passes_cons h, convertParts_passes_cons h', hsaid]
            split
            · have ih := echoes_convertParts cs (f.add [e.part] :: outer) hrest
                (List.forall_mem_cons.mpr ⟨List.forall_mem_append.mpr ⟨hf, hpart⟩, houter⟩)
              rw [List.map_cons, Frame.voiced_add] at ih
              exact ih
            · exact (echoes_convertParts cs (f :: outer) hrest hframes).append hpart

/-! ## What is taken down -/

theorem Speech.add_voiced (s : Speech) {p : Part} (hp : p.matched = []) :
    s.add p.voiced = s.add p := by
  unfold Speech.add
  rw [Part.heard_voiced hp]
  rfl

theorem Speech.ofParts_voiced {parts : List Part} (hparts : ∀ p ∈ parts, p.matched = []) :
    Speech.ofParts (parts.map Part.voiced) = Speech.ofParts parts := by
  have hfold : ∀ (parts : List Part) (s : Speech), (∀ p ∈ parts, p.matched = []) →
      (parts.map Part.voiced).foldlM Speech.add s = parts.foldlM Speech.add s := by
    intro parts
    induction parts with
    | nil => exact fun _ _ => rfl
    | cons p parts ih =>
        intro s hparts
        obtain ⟨hp, hparts⟩ := List.forall_mem_cons.mp hparts
        rw [List.map_cons, List.foldlM_cons, List.foldlM_cons, s.add_voiced hp]
        exact congrArg _ (funext fun s => ih s hparts)
  unfold Speech.ofParts
  rw [hfold parts {} hparts]

/-- Emissions that match nothing mean the same as with their words matched. -/
theorem interpretEmissions_voiced (cs : Converters) (intent : String) {es : List Emission}
    (hes : ∀ e ∈ es, e.matched = []) (cost : Option Float) :
    interpretEmissions cs intent (es.map Emission.voiced) cost =
      interpretEmissions cs intent es cost := by
  have hparts := echoes_convertParts cs [] hes (List.forall_mem_nil _)
  unfold interpretEmissions
  rw [← List.map_nil (f := Frame.voiced), hparts.eq, List.map_nil]
  cases h : convertParts cs [] es with
  | error err => rfl
  | ok parts =>
      simp only [Except.map, bind, Except.bind]
      rw [Speech.ofParts_voiced (hparts.unmatched parts h)]

/-! ## Paths -/

theorem Label.eq_wildcard_of_pack {text : String} (h : pack text = wildcard) :
    text = wildcard := by
  unfold pack at h
  split at h
  · have hlist := congrArg String.toList h
    simp [packMark, wildcard] at hlist
  · exact h

/-- Where no word is a wildcard, nothing is heard on the edges that say one. -/
theorem input_of_output_wildcard {l : IntentSentences} {t : Table} {c : CompileOptions}
    {g : Graph} (hwords : ∀ h ∈ l.heads ++ t.heads, h.Hears (· ≠ wildcard))
    (hg : Graph.ofSentences l t c = .ok g) :
    g.Marks fun _ m => m.output = wildcard → m.input = "" := by
  refine marks_ofSentences (fun _ _ _ => rfl) (fun _ _ _ => rfl)
    (fun h hh text htext hidden _ hwild => ?_) hg
  simp only at hwild
  split at hwild
  · exact absurd hwild (by decide)
  · exact absurd (Label.eq_wildcard_of_pack hwild) (hwords h hh text htext)

namespace Graph

variable {g : Graph} {p : Path} {a b : Nat}

/-- A search hears the words of the edges. -/
theorem Follows.voiced {R : Edge → List String → Prop} (hp : g.Follows R a p b)
    {o : SearchOptions} (haccepts : ∀ intent ∈ g.intentsOn p, o.accepts intent = true) :
    g.Follows (Edge.Hears o) a (g.voiced p) b := by
  induction hp with
  | nil a => exact .nil a
  | @cons a b c e matched p he hR _ ih =>
      have hcons : g.intentsOn (⟨a, b, matched⟩ :: p) =
          (Label.intent? e.output).toList ++ g.intentsOn p := by
        rw [intentsOn, filterMap_cons_toList]
        simp only [he, Option.bind_some]
        rfl
      rw [hcons, List.forall_mem_append] at haccepts
      rw [voiced_cons he]
      refine .cons he ⟨fun intent hintent => haccepts.1 intent (by simp [hintent]), ?_⟩
        (ih haccepts.2)
      unfold Edge.words
      by_cases hinput : e.input = ""
      · exact .inl ⟨hinput, if_pos hinput⟩
      · exact .inr ⟨hinput, e.input, if_neg hinput, .inr rfl⟩

/-- On an edge that leads on, the word is matched that is heard into its target. -/
theorem emission_voiced (hg : g.Ascending) {e : Edge} (he : g.edge? a b = some e) (hlt : a < b)
    (hwild : e.output = wildcard → e.input = "") :
    g.emission ⟨a, b, e.words⟩ = (g.emission ⟨a, b, []⟩).map Emission.voiced := by
  have hraw : (g.word? b).getD "" = e.input := hg.heard (mark?_of_edge? he) hlt
  have hwords : e.words = heardAs e.input := by
    unfold Edge.words heardAs
    by_cases hinput : e.input = "" <;> simp [hinput]
  have hsaid : (if e.output == wildcard then " ".intercalate e.words else e.output) =
      if e.output == wildcard then " ".intercalate [] else e.output := by
    split
    next h => rw [Edge.words, if_pos (hwild (eq_of_beq h))]
    next => rfl
  unfold emission
  simp only [he, hsaid]
  cases Label.unpack? (if e.output == wildcard then " ".intercalate [] else e.output) with
  | none => rfl
  | some label =>
      simp only [hraw, hwords]
      rfl

theorem Follows.emissions_voiced (hp : g.Follows Unmatched a p b) (hg : g.Ascending)
    (hinputs : g.Inputs (· ≠ wildcard))
    (hmarks : g.Marks fun _ m => m.output = wildcard → m.input = "") :
    g.emissions (g.voiced p) = (g.emissions p).map (List.map Emission.voiced) := by
  unfold emissions
  induction hp with
  | nil => rfl
  | @cons a b c e matched p he hmatched _ ih =>
      obtain rfl : matched = [] := hmatched
      have hlt : a < b := by
        rcases hg.lt_or_loop (mark?_of_edge? he) with hlt | ⟨-, hloop⟩
        · exact hlt
        · exact absurd (congrArg Mark.input hloop) (hinputs.of_edge? he)
      rw [voiced_cons he, List.mapM_cons, List.mapM_cons, ih,
        emission_voiced hg he hlt (hmarks.of_edge? he)]
      cases g.emission ⟨a, b, []⟩ with
      | error err => rfl
      | ok first => cases p.mapM g.emission <;> rfl

theorem Follows.matched_emissions (hp : g.Follows Unmatched a p b) {es : List Emission}
    (hes : g.emissions p = .ok es) : ∀ e ∈ es, e.matched = [] := by
  rw [emissions_eq_ok hes]
  intro e he
  obtain ⟨s, hs, rfl⟩ := List.mem_map.mp he
  obtain ⟨_, _, hmatched⟩ := hp.exists_edge s hs
  exact hmatched

/-- A path means the same whether its words are matched or not. -/
theorem Follows.interpret_voiced (hp : g.Follows Unmatched a p b) (hg : g.Ascending)
    (hinputs : g.Inputs (· ≠ wildcard))
    (hmarks : g.Marks fun _ m => m.output = wildcard → m.input = "") (cs : Converters)
    (cost : Option Float) : g.interpret cs (g.voiced p) cost = g.interpret cs p cost := by
  have hvoiced := hp.emissions_voiced hg hinputs hmarks
  cases hes : g.emissions p with
  | error err =>
      rw [hes] at hvoiced
      unfold interpret
      rw [hvoiced, hes]
      rfl
  | ok es =>
      rw [hes] at hvoiced
      have hintent : intentOf (es.map Emission.voiced) = intentOf es := by
        rw [intentOf, ← List.map_reverse, List.findSome?_map]
        rfl
      have hcounts : (es.map Emission.voiced).filter Emission.counts =
          (es.filter Emission.counts).map Emission.voiced := by
        rw [List.filter_map]
        rfl
      rw [interpret_eq hvoiced, interpret_eq hes, hintent, hcounts]
      exact interpretEmissions_voiced cs _
        (fun e he => hp.matched_emissions hes e (List.mem_of_mem_filter he)) cost

end Graph

/-- Samples are recognized.  In a compiled graph without wildcards, a search for the words of a
simple path finds the path through the same states, unless there are no words or an intent on
the path is not accepted.  What it finds is interpreted as the sample is, with any converters:
both give the same recognition, or the same error. -/
theorem samples_recognized {l : IntentSentences} {t : Table} {c : CompileOptions} {g : Graph}
    (hwords : ∀ h ∈ l.heads ++ t.heads, h.Hears (· ≠ wildcard))
    (hg : Graph.ofSentences l t c = .ok g) {limit : Option Nat} {p : Path}
    (hp : p ∈ g.simplePaths limit) (hne : g.inputsOn p ≠ []) {o : SearchOptions}
    (haccepts : ∀ intent ∈ g.intentsOn p, o.accepts intent = true) :
    ∃ q ∈ g.exactPaths o (g.inputsOn p),
      q.map (fun s => (s.source, s.target)) = p.map (fun s => (s.source, s.target)) ∧
      ∀ (cs : Converters) (cost : Option Float), g.interpret cs q cost = g.interpret cs p cost := by
  have hascending := ascending_ofSentences hg
  have hinputs : g.Inputs (· ≠ wildcard) := inputs_ofSentences (by decide) hwords hg
  have hmarks := input_of_output_wildcard hwords hg
  obtain ⟨start, final, hstart, hfinal, hfollows⟩ :=
    Graph.crosses_of_mem_simplePaths (R := Unmatched) (fun _ => rfl) hascending.valid hp
  refine ⟨g.voiced p, ?_, g.states_voiced p,
    fun cs cost => hfollows.interpret_voiced hascending hinputs hmarks cs cost⟩
  rw [Graph.mem_exactPaths_iff_run hascending.valid hascending.acyclic hstart hne]
  exact ⟨⟨start, final, hstart, hfinal, hfollows.voiced haccepts⟩, g.tokens_voiced p⟩

def redSample : Path := redPath.map fun s => { s with matched := [] }

/-- The word in the converter is said after the entity around it has closed, in the sample as
in what is found. -/
theorem samples_redGraph :
    (∀ h ∈ IntentSentences.heads [("Lamp", [redSentence])] ++ Table.heads [],
        h.Hears (· ≠ wildcard)) ∧
      redGraph.simplePaths = [redSample] ∧ redGraph.inputsOn redSample = ["red", "lamp"] ∧
      ∃ q ∈ redGraph.exactPaths {} ["red", "lamp"],
        redGraph.interpret upperConverters q = .ok redRecognition := by
  have hwords : ∀ h ∈ IntentSentences.heads [("Lamp", [redSentence])] ++ Table.heads [],
      h.Hears (· ≠ wildcard) := by
    unfold Head.Hears
    decide
  have hpaths : redGraph.simplePaths = [redSample] := by decide
  have hinputs : redGraph.inputsOn redSample = ["red", "lamp"] := by decide
  have hmem : redSample ∈ redGraph.simplePaths := by
    rw [hpaths]
    exact List.mem_singleton_self _
  obtain ⟨q, hq, -, hinterpret⟩ := samples_recognized (o := {}) hwords ofSentences_redSentence hmem
    (by rw [hinputs]; exact List.cons_ne_nil _ _) fun _ _ => rfl
  rw [hinputs] at hq
  exact ⟨hwords, hpaths, hinputs, q, hq, (hinterpret upperConverters none).trans rfl⟩

end Utterance
