import Utterance.Proofs.Recognition.Ranges

/-!
# Substitutions that are said

A word with a substitution is heard, and the tokens of the substitution are said in its
place: each of them is packed into the label of an edge of its own, unpacked from there and
taken down (`emissionsOf_substitutedReading`, `ofParts_substituted`).  So they come out as they went
in, blanks and all, if they are ordinary; the word itself only has to be heard
(`recognize_substitutedSentence`).

An asterisk does not come out: as a label it says what was heard, and an edge of the
substitution hears nothing.  An empty word is not even heard.
-/

namespace Utterance

open Utterance.Graph

/-- A sentence of one word, in whose place some tokens are said. -/
def substitutedSentence (text w : String) (ss : List String) : Sentence :=
  ⟨text, [.word w { substitution := some ss } none]⟩

/-- The only way to read this sentence. -/
def substitutedReading (w : String) (ss : List String) : Reading :=
  .node none [.word w { substitution := some ss } none] {} none

/-! ## The graph of a substitution -/

section

variable (t : Table) (intent text w : String) (ss : List String)

theorem unfold_substitutedSentence : (substitutedSentence text w ss).unfold t intent =
    .seq .group [.word w { substitution := some ss } none] {} none := by
  rw [Sentence.unfold, Sentence.toExpr, substitutedSentence, unfold, unfoldAll, unfold, unfoldAll]

theorem filled_substitutedSentence :
    ((substitutedSentence text w ss).unfold t intent).Filled := by
  rw [unfold_substitutedSentence, Tree.Filled, AllFilled, AllFilled, Tree.Filled]
  exact ⟨List.cons_ne_nil _ _, trivial, trivial⟩

theorem readingsOfIntents_substitutedSentence :
    readingsOfIntents t [(intent, [substitutedSentence text w ss])] =
      [(intent, substitutedReading w ss)] := by
  rw [readingsOfIntents, List.flatMap_singleton, List.map_singleton, unfold_substitutedSentence]
  rfl

/-- There is no slot in the sentence, so slots may be replaced by their values or not. -/
theorem ofSentences_substitutedSentence (o : CompileOptions) :
    Graph.ofSentences [(intent, [substitutedSentence text w ss])] t o =
      Graph.ofSentences [(intent, [substitutedSentence text w ss])] t := by
  rw [ofSentences_intent, ofSentences_intent, List.map_singleton, unfold_substitutedSentence]
  simp only [buildEach, build, buildInTurn]

theorem exists_ofSentences_substitutedSentence :
    ∃ g, Graph.ofSentences [(intent, [substitutedSentence text w ss])] t = .ok g := by
  refine exists_ofSentences_singleton ?_
  rw [unfold_substitutedSentence, Tree.Whole, AllWhole, AllWhole, Tree.Whole]
  exact ⟨trivial, trivial⟩

theorem fixed_substitutedSentence {w : String} (hwild : w ≠ wildcard) {ss : List String}
    (hss : ∀ s ∈ ss, s ≠ wildcard) :
    ∀ h ∈ IntentSentences.heads [(intent, [substitutedSentence text w ss])] ++ Table.heads [],
      h.Fixed := by
  have hheads : IntentSentences.heads [(intent, [substitutedSentence text w ss])] =
      [⟨none, {}, none⟩, ⟨some w, { substitution := some ss }, none⟩] := by
    simp [IntentSentences.heads, Sentence.toExpr, substitutedSentence, Expr.heads, Expr.nodes,
      Expr.nodesOf, Expr.head]
  rw [hheads, Table.heads, List.flatMap_nil, List.append_nil, List.forall_mem_cons,
    List.forall_mem_singleton]
  refine ⟨fun _ hx => (List.not_mem_nil hx).elim, fun x hx => ?_⟩
  rcases List.mem_cons.mp hx with rfl | hx
  · exact hwild
  · exact hss x (by simpa [Head.substitutions, tagSubstitution] using hx)

end

/-! ## What is heard and said -/

section

variable {w : String} {ss : List String}

theorem heard_substitutedReading (hw : w ≠ "") : (substitutedReading w ss).heard = [w] := by
  rw [substitutedReading, Reading.heard, Reading.heardInTurn, Reading.heard, if_neg hw]
  rfl

theorem marks_substitutedReading :
    (substitutedReading w ss).marks false = wordMarks true w ++ saidMarks ss := by
  have hword : (Reading.word w { substitution := some ss } none).marks false =
      wordMarks true w ++ saidMarks ss := by
    simp [Reading.marks, Reading.enclose, labelsBefore, labelsAfter, ownWords, tagSubstitution,
      tagConverters, isReplaced, saidMarks_nil]
  have hshown : (false || isReplaced {} none) = false := rfl
  rw [substitutedReading, Reading.marks, Reading.enclose_plain, hshown, Reading.marksInTurn,
    Reading.marksInTurn, hword]
  simp

variable (hss : ∀ s ∈ ss, Ordinary s)
include hss

theorem tame_marks_substitutedReading :
    ∀ m ∈ (substitutedReading w ss).marks false, m.Tame := by
  rw [marks_substitutedReading]
  intro m hm
  rcases List.mem_append.mp hm with hm | hm
  · -- the word is hidden, so its mark says nothing, whatever the word is
    rw [Mark.eq_of_mem_spelled hm]
    exact ⟨"", Mark.label?_silent, fun _ => by decide, by decide⟩
  · exact tame_saidMarks (fun s hs => (hss s hs).sayable) m hm

theorem output_ne_of_mem_substitutedReading :
    ∀ m ∈ (substitutedReading w ss).marks false, m.output ≠ wildcard := by
  rw [marks_substitutedReading]
  intro m hm
  rcases List.mem_append.mp hm with hm | hm
  · rw [Mark.eq_of_mem_spelled hm]
    exact (by decide : "" ≠ wildcard)
  · exact output_ne_of_mem_saidMarks (fun s hs => ⟨(hss s hs).sayable, (hss s hs).ne_wildcard⟩) m hm

theorem emissionsOf_saidMarks_of_ordinary :
    emissionsOf (saidMarks ss) = ss.map fun s => ⟨"", s, []⟩ := by
  induction ss with
  | nil => rfl
  | cons s ss ih =>
      rw [List.forall_mem_cons] at hss
      rw [← List.singleton_append, saidMarks_append, emissionsOf_append,
        emissionsOf_saidMarks hss.1.sayable hss.1.ne, ih hss.2]
      rfl

/-- The word is only heard, and the tokens are only said. -/
theorem emissionsOf_substitutedReading (hw : w ≠ "") :
    emissionsOf ((substitutedReading w ss).marks false) =
      ⟨w, "", [w]⟩ :: ss.map fun s => ⟨"", s, []⟩ := by
  rw [marks_substitutedReading, emissionsOf_append, emissionsOf_wordMarks_hidden hw,
    emissionsOf_saidMarks_of_ordinary hss]
  rfl

end

/-! ## Tokens that are said one after the other -/

/-- Labels that pass every converter by become parts as they are. -/
theorem convertParts_of_passes (cs : Converters) {es : List Emission}
    (hes : ∀ e ∈ es, Control.Passes (Control.read? e.label)) :
    convertParts cs [] es = .ok (es.map Emission.part) := by
  induction es with
  | nil => rfl
  | cons e es ih =>
      rw [List.forall_mem_cons] at hes
      rw [convertParts_passes_nil hes.1, ih hes.2]
      rfl

theorem shownAll_texts (ss : List String) : shownAll (ss.map Value.text) = .ok (spaced ss) := by
  have hshown : (ss.map Value.text).mapM shown = .ok ss := by
    induction ss with
    | nil => rfl
    | cons s ss ih =>
        rw [List.map_cons, List.mapM_cons, ih]
        rfl
  rw [shownAll, hshown]
  rfl

namespace Speech

/-- Where no entity is open, texts that are said go to the tokens. -/
theorem foldlM_said {ss : List String} (hss : ∀ s ∈ ss, s ≠ "") :
    ∀ s : Speech, s.opened = [] →
      (ss.map fun text => (⟨"", .value (.text text), []⟩ : Part)).foldlM add s =
        .ok { s with tokens := s.tokens ++ ss.map .text, offset := s.offset + roomAll ss } := by
  induction ss with
  | nil => simp [roomAll, pure, Except.pure]
  | cons text ss ih =>
      intro s hs
      rw [List.forall_mem_cons] at hss
      have hempty : text.isEmpty = false := by simpa using hss.1
      have hheard : Part.heard ⟨"", .value (.text text), []⟩ = [] := rfl
      rw [List.map_cons, List.foldlM_cons, add_value s (v := .text text) rfl hempty, hheard,
        hear_nil]
      change List.foldlM add (s.note _ _) _ = _
      rw [ih hss.2 _ (by rw [note, mapInnermost, hs]; exact hs)]
      simp [note, mapInnermost, hs, roomAll, Nat.add_assoc]

end Speech

/-! ## What is recognized -/

/-- The recognition of the sentence. -/
def substitutedRecognition (intent w : String) (ss : List String) : Recognition where
  intent := intent
  confidence := 1
  entities := []
  text := spaced ss
  rawText := w
  tokens := ss.map .text
  rawTokens := [w]

theorem ofParts_substituted {w : String} {ss : List String} (hss : ∀ s ∈ ss, s ≠ "") :
    Speech.ofParts (⟨w, .nothing, [w]⟩ :: ss.map fun s => ⟨"", .value (.text s), []⟩) =
      .ok { tokens := ss.map .text, rawTokens := [w], offset := roomAll ss, rawOffset := room w } := by
  have hword : Speech.add {} ⟨w, .nothing, [w]⟩ =
      .ok { rawTokens := [w], rawOffset := room w } := by
    simp [Speech.add, Part.heard, Speech.hear, Speech.mapInnermost, roomAll]
  rw [Speech.ofParts, List.foldlM_cons, hword]
  change (List.foldlM Speech.add { rawTokens := [w], rawOffset := room w } _).bind _ = _
  rw [Speech.foldlM_said hss _ rfl]
  simp [Except.bind, pure, Except.pure]

theorem interpretEmissions_substitutedReading {w : String} (hw : w ≠ "") {ss : List String}
    (hss : ∀ s ∈ ss, Ordinary s) (cs : Converters) (intent : String) :
    interpretEmissions cs intent (emissionsOf ((substitutedReading w ss).marks false)) =
      .ok (substitutedRecognition intent w ss) := by
  have hread : Control.read? "" = none := by decide
  have hpasses : ∀ e ∈ (⟨w, "", [w]⟩ : Emission) :: ss.map fun s => ⟨"", s, []⟩,
      Control.Passes (Control.read? e.label) := by
    refine List.forall_mem_cons.mpr ⟨hread ▸ Control.passes_none, ?_⟩
    exact List.forall_mem_map.mpr fun s hs => (hss s hs).passes
  have hparts : (⟨w, "", [w]⟩ :: ss.map fun s => (⟨"", s, []⟩ : Emission)).map Emission.part =
      ⟨w, .nothing, [w]⟩ :: ss.map fun s => ⟨"", .value (.text s), []⟩ := by
    rw [List.map_cons, List.map_map]
    refine congrArg _ (List.map_congr_left fun s hs => ?_)
    rw [Function.comp_apply, Emission.part, (hss s hs).ofLabel]
  have hraw : spaced [w] = w := by simp [spaced]
  rw [emissionsOf_substitutedReading hss hw, interpretEmissions, convertParts_of_passes cs hpasses,
    hparts]
  simp only [bind, Except.bind, ofParts_substituted fun s hs => (hss s hs).ne, shownAll_texts, hraw]
  rfl

/-- The tokens that are said in place of a word come out as they went in, if they are ordinary.
The word may look like a mark: it is only heard. -/
theorem recognize_substitutedSentence {w : String} (hne : w ≠ "") (hwild : w ≠ wildcard)
    {ss : List String} (hss : ∀ s ∈ ss, Ordinary s) (intent text : String) (o : CompileOptions)
    (cs : Converters) :
    ∃ g r, Graph.ofSentences [(intent, [substitutedSentence text w ss])] [] o = .ok g ∧
      g.recognize ({ tolerant := false } : RecognizerConfig).options cs [w] = .ok [r] ∧
      r.tokens = ss.map Value.text ∧ r.text = spaced ss ∧ r.rawTokens = [w] ∧
      r.intent = intent := by
  obtain ⟨g, hg⟩ := exists_ofSentences_substitutedSentence [] intent text w ss
  refine ⟨g, substitutedRecognition intent w ss,
    (ofSentences_substitutedSentence [] intent text w ss o).trans hg, ?_, rfl, rfl, rfl, rfl⟩
  have hfixed := fixed_substitutedSentence intent text hwild fun s hs => (hss s hs).ne_wildcard
  have hfilled : ∀ p ∈ [(intent, [substitutedSentence text w ss])], ∀ s ∈ p.2,
      (s.unfold [] p.1).Filled := by
    simpa using filled_substitutedSentence [] intent text w ss
  have hone : ((readingsOfIntents [] [(intent, [substitutedSentence text w ss])]).filter
      fun q => q.2.heard = [w]) = [(intent, substitutedReading w ss)] := by
    rw [readingsOfIntents_substitutedSentence]
    exact List.filter_cons_of_pos (decide_eq_true (heard_substitutedReading hne))
  refine recognize_of_reading hfixed rfl hg hfilled (List.cons_ne_nil _ _) hone
    fun p hp hspelled => ?_
  rw [hp.interpret_of_marks hfixed hg hspelled (tame_marks_substitutedReading hss)
    (output_ne_of_mem_substitutedReading hss)]
  exact interpretEmissions_substitutedReading hne hss cs intent

theorem recognize_substitutedSentence_home :
    "__home" ≠ "" ∧ "__home" ≠ wildcard ∧ (∀ s ∈ ["living room", "lamp"], Ordinary s) ∧
      ∃ g r, Graph.ofSentences
          [("Go", [substitutedSentence "__home" "__home" ["living room", "lamp"]])] [] = .ok g ∧
        g.recognize ({ tolerant := false } : RecognizerConfig).options {} ["__home"] = .ok [r] ∧
        r.tokens = [.text "living room", .text "lamp"] := by
  have hne : "__home" ≠ "" := by decide
  have hwild : "__home" ≠ wildcard := by decide
  have hss : ∀ s ∈ ["living room", "lamp"], Ordinary s := by
    refine List.forall_mem_cons.mpr ⟨?_, List.forall_mem_singleton.mpr ?_⟩ <;>
      exact ⟨by decide, by decide, by decide⟩
  obtain ⟨g, r, hg, hr, htokens, -⟩ :=
    recognize_substitutedSentence hne hwild hss "Go" "__home" {} {}
  exact ⟨hne, hwild, hss, g, r, hg, hr, htokens⟩

/-- `times:*` -/
def timesGraph : Graph where
  nodes := #[⟨none, #[0]⟩, ⟨none, #[1]⟩, ⟨some "times", #[2]⟩, ⟨none, #[3]⟩, ⟨none, #[]⟩]
  edges := #[{ source := 0, target := 1, output := "__label__Math" },
    { source := 1, target := 2, input := "times" }, { source := 2, target := 3, output := "*" },
    { source := 3, target := 4 }]
  start := some 0
  final := some 4

/-- `:x` -/
def silentGraph : Graph where
  nodes := #[⟨none, #[0]⟩, ⟨none, #[1]⟩, ⟨some "", #[2]⟩, ⟨none, #[3]⟩, ⟨none, #[]⟩]
  edges := #[{ source := 0, target := 1, output := "__label__Math" },
    { source := 1, target := 2 }, { source := 2, target := 3, output := "x" },
    { source := 3, target := 4 }]
  start := some 0
  final := some 4

/-- An asterisk that should be said is lost, and an empty word is not heard. -/
theorem recognize_timesGraph_silentGraph :
    Graph.ofSentences [("Math", [substitutedSentence "times:*" "times" ["*"]])] [] =
        .ok timesGraph ∧
      timesGraph.recognize ({ tolerant := false } : RecognizerConfig).options {} ["times"] =
        .ok [substitutedRecognition "Math" "times" []] ∧
      Graph.ofSentences [("Math", [substitutedSentence ":x" "" ["x"]])] [] = .ok silentGraph ∧
      silentGraph.recognize ({ tolerant := false } : RecognizerConfig).options {} [""] = .ok [] ∧
      "times" ≠ wildcard ∧ "" ≠ wildcard ∧
      ∀ s ∈ ["*", "x"], s ≠ "" ∧ Label.isControl s = false := by
  refine ⟨(ofSentences_singleton (unfold_substitutedSentence ..)).trans rfl, ?_,
    (ofSentences_singleton (unfold_substitutedSentence ..)).trans rfl, ?_, by decide, by decide,
    by decide⟩
  · have hpaths : timesGraph.exactPaths {} ["times"] =
        [[⟨0, 1, []⟩, ⟨1, 2, ["times"]⟩, ⟨2, 3, []⟩, ⟨3, 4, []⟩]] := by decide
    rw [recognize, candidates_strict, hpaths]
    rfl
  · have hpaths : silentGraph.exactPaths {} [""] = [] := by decide
    rw [recognize, candidates_strict, hpaths]
    rfl

end Utterance
