import Utterance.Proofs.Compile.Reading
import Utterance.Proofs.Recognition.Entities
import Utterance.Recognize
import Utterance.Train

/-!
# Offsets

The offsets of an entity count the room of the words before it and inside it.  In a
text of words with single spaces between them, the room of the first words is where
the next one starts (`cut?_spaced`).  So an entity that holds all that is said in
its span is cut out of the text by its offsets (`interpret_offsets`).

Its end is before a space that is counted whether or not anything stands before it.
If nothing is said in a span, the end is before the start, unless both are at the
start of the text (`recognize_offsets`).
-/

namespace Utterance

/-! ## Cutting texts -/

/-- The characters of a text between two offsets; none if these are no range of it. -/
def cut? (s : String) (first last : Nat) : Option String :=
  if first ≤ last ∧ last ≤ s.length then
    some (String.ofList ((s.toList.drop first).take (last - first)))
  else none

theorem cut?_append (before s after : String) :
    cut? (before ++ s ++ after) before.length (before.length + s.length) = some s := by
  have hrange : before.length ≤ before.length + s.length ∧
      before.length + s.length ≤ (before ++ s ++ after).length := by
    simp only [String.length_append]
    omega
  have hchars : (((before ++ s ++ after).toList.drop before.length).take s.length) = s.toList := by
    rw [String.toList_append, String.toList_append, List.append_assoc,
      ← String.length_toList (s := before), List.drop_left, ← String.length_toList (s := s),
      List.take_left]
  rw [cut?, if_pos hrange, Nat.add_sub_cancel_left, hchars, String.ofList_toList]

theorem roomAll_eq_zero {words : List String} : roomAll words = 0 ↔ words = [] := by
  cases words with
  | nil => exact ⟨fun _ => rfl, fun _ => rfl⟩
  | cons word words =>
      rw [roomAll, room]
      exact ⟨fun h => by omega, fun h => (List.cons_ne_nil _ _ h).elim⟩

/-- Words take up the room of their text and of the space after it. -/
theorem roomAll_of_ne_nil : ∀ {words : List String}, words ≠ [] →
    roomAll words = (spaced words).length + 1
  | [], h => (h rfl).elim
  | [word], _ => by rw [spaced, String.intercalate_singleton, roomAll, roomAll, room]
  | word :: next :: words, _ => by
      have hspace : (" " : String).length = 1 := rfl
      rw [roomAll, roomAll_of_ne_nil (List.cons_ne_nil next words), spaced, spaced,
        String.intercalate_cons_cons, String.length_append, String.length_append, room, hspace]
      omega

theorem length_spaced (words : List String) : (spaced words).length = roomAll words - 1 := by
  by_cases h : words = []
  · rw [h]
    rfl
  · rw [roomAll_of_ne_nil h, Nat.add_sub_cancel]

/-- The room of the first words is what stands before the others. -/
theorem exists_spaced_before : ∀ before : List String, ∃ s : String,
    s.length = roomAll before ∧ ∀ words ≠ [], spaced (before ++ words) = s ++ spaced words
  | [] => ⟨"", rfl, fun _ _ => (String.empty_append).symm⟩
  | word :: before => by
      obtain ⟨s, hlength, hs⟩ := exists_spaced_before before
      refine ⟨word ++ " " ++ s, ?_, fun words hwords => ?_⟩
      · rw [String.length_append, String.length_append, hlength, roomAll, room]
        rfl
      · have hne : before ++ words ≠ [] := fun h => hwords (List.append_eq_nil_iff.mp h).2
        have hnext := hs words hwords
        rw [spaced] at hnext
        rw [List.cons_append, spaced, String.intercalate_cons_of_ne_nil hne, hnext]
        simp only [String.append_assoc]

theorem exists_spaced_after {words : List String} (h : words ≠ []) (after : List String) :
    ∃ s, spaced (words ++ after) = spaced words ++ s := by
  by_cases hafter : after = []
  · exact ⟨"", by rw [hafter, List.append_nil, String.append_empty]⟩
  · exact ⟨" " ++ spaced after, by
      rw [spaced, String.intercalate_append_of_ne_nil h hafter, String.append_assoc]
      rfl⟩

/-- Among spaced words, some of them are cut out by the room of those before them and
the room up to their end, less the last space. -/
theorem cut?_spaced (before after : List String) {words : List String} (h : words ≠ []) :
    cut? (spaced (before ++ words ++ after)) (roomAll before) (roomAll (before ++ words) - 1)
      = some (spaced words) := by
  obtain ⟨s, hlength, hs⟩ := exists_spaced_before before
  obtain ⟨s', hs'⟩ := exists_spaced_after h after
  have htext : spaced (before ++ words ++ after) = s ++ spaced words ++ s' := by
    rw [List.append_assoc, hs _ (fun hnil => h (List.append_eq_nil_iff.mp hnil).1), hs',
      String.append_assoc]
  have hlast : roomAll (before ++ words) - 1 = s.length + (spaced words).length := by
    rw [Speech.roomAll_append, roomAll_of_ne_nil h, hlength]
    omega
  rw [htext, ← hlength, hlast, cut?_append]

/-! ## Texts of values -/

theorem displayable_of_shownAll : ∀ {l : List Value} {text : String}, shownAll l = .ok text →
    ∀ v ∈ l, v.Displayable
  | [], _, _, v, hv => (List.not_mem_nil hv).elim
  | w :: l, text, h, v, hv => by
      obtain ⟨texts, htexts, -⟩ := Except.bind_eq_ok.mp h
      rw [List.mapM_cons] at htexts
      obtain ⟨t, ht, htexts⟩ := Except.bind_eq_ok.mp htexts
      obtain ⟨ts, hts, -⟩ := Except.bind_eq_ok.mp htexts
      rcases List.mem_cons.mp hv with rfl | hv
      · rw [Value.Displayable, shown_eq_ok ht]
        rfl
      · have hrest : shownAll l = .ok (spaced ts) := by
          rw [shownAll, hts]
          rfl
        exact displayable_of_shownAll hrest v hv

/-! ## Where an entity stands -/

namespace Span

variable {parts : List Part} (span : Span parts)

/-- An entity in which no other one opens is the innermost one in all of its span. -/
theorem saidOutermost_eq (h : ∀ q ∈ span.inside, q.opens? = none) :
    span.saidOutermost = span.said := by
  rw [saidOutermost, span.nested.outermost_eq h]
  rfl

theorem heardOutermost_eq (h : ∀ q ∈ span.inside, q.opens? = none) :
    span.heardOutermost = span.heard := by
  rw [heardOutermost, span.nested.outermost_eq h]
  rfl

/-- No other entity opens in the only one. -/
theorem opens?_of_lone {name : String} (h : parts.filterMap Part.opens? = [name]) :
    ∀ q ∈ span.inside, q.opens? = none := by
  have hlength : (parts.filterMap Part.opens?).length
      = (span.before.filterMap Part.opens?).length + ((span.inside.filterMap Part.opens?).length
        + ((span.closing :: span.after).filterMap Part.opens?).length + 1) := by
    refine (congrArg (fun l => (l.filterMap Part.opens?).length) span.parts_eq).trans ?_
    rw [List.filterMap_append, List.filterMap_cons_some span.opens, List.filterMap_append,
      List.length_append, List.length_cons, List.length_append]
  rw [h, List.length_singleton] at hlength
  exact List.filterMap_eq_nil_iff.mp (List.length_eq_zero_iff.mp (by omega))

end Span

namespace Recognition.Of

variable {r : Recognition} {parts : List Part} {span : Span parts} {e : Entity}

theorem text_eq_spaced (hr : r.Of parts) (span : Span parts) :
    r.text = spaced (span.saidBefore.map Value.shownText ++ span.said.map Value.shownText ++
      (saidIn span.after).map Value.shownText) := by
  rw [shownAll_eq_ok hr.text_eq, hr.tokens_eq, span.saidIn_eq, List.map_append, List.map_append]

theorem rawText_eq_spaced (hr : r.Of parts) (span : Span parts) :
    r.rawText = spaced (span.heardBefore ++ span.heard ++ heardIn span.after) := by
  rw [hr.rawText_eq, hr.rawTokens_eq, span.heardIn_eq]

/-- The offsets cut out of the text what is said in the span. -/
theorem cut?_text (hr : r.Of parts) (he : span.Holds e) (h : span.said ≠ []) :
    cut? r.text e.first e.last = some (spaced (span.said.map Value.shownText)) := by
  rw [hr.text_eq_spaced span, he.first_eq, he.last_eq, List.map_append]
  exact cut?_spaced _ _ (mt List.map_eq_nil_iff.mp h)

/-- The raw offsets cut out of the raw text what is heard in the span. -/
theorem cut?_rawText (hr : r.Of parts) (he : span.Holds e) (h : span.heard ≠ []) :
    cut? r.rawText e.rawFirst e.rawLast = some (spaced span.heard) := by
  rw [hr.rawText_eq_spaced span, he.rawFirst_eq, he.rawLast_eq]
  exact cut?_spaced _ _ h

theorem exists_shownAll_said (hr : r.Of parts) (span : Span parts) :
    shownAll span.said = .ok (spaced (span.said.map Value.shownText)) := by
  obtain ⟨text, htext⟩ := exists_shownAll (l := span.said) fun v hv =>
    displayable_of_shownAll hr.text_eq v (by
      rw [hr.tokens_eq, span.saidIn_eq]
      exact List.mem_append_left _ (List.mem_append_right _ hv))
  rw [htext, shownAll_eq_ok htext]

end Recognition.Of

/-- The offsets of an entity in which no other one opens cut its words out of the text
and out of the raw text, whatever the graph, the path and the converters are. -/
theorem interpret_offsets {g : Graph} {cs : Converters} {p : Path} {cost : Option Float}
    {r : Recognition} (h : g.interpret cs p cost = .ok r) :
    ∃ parts, g.parts cs p = .ok parts ∧
      parts.filterMap Part.control? = (g.controls p).filter Control.isEntity ∧
      ∀ k e, r.entities[k]? = some e → ∃ span : Span parts,
        span.position = k ∧ span.name = e.name ∧
        ((∀ q ∈ span.inside, q.opens? = none) →
          (e.tokens ≠ [] → ∃ text, shownAll e.tokens = .ok text ∧
            cut? r.text e.first e.last = some text ∧ e.value.display? = some text) ∧
          (e.rawTokens ≠ [] →
            cut? r.rawText e.rawFirst e.rawLast = some e.rawValue ∧
              e.rawValue = spaced e.rawTokens)) := by
  obtain ⟨parts, hparts, hr⟩ := interpret_spans h
  refine ⟨parts, hparts, Graph.controls_parts hparts, fun k e hk => ?_⟩
  obtain ⟨span, hposition, he⟩ := hr.exists_span hk
  refine ⟨span, hposition, he.name_eq.symm, fun hinside => ⟨fun hne => ?_, fun hne => ?_⟩⟩
  · have htokens : e.tokens = span.said := he.tokens_eq.trans (span.saidOutermost_eq hinside)
    have hshown : shownAll e.tokens = .ok (spaced (span.said.map Value.shownText)) :=
      htokens ▸ hr.exists_shownAll_said span
    exact ⟨_, hshown, hr.cut?_text he (htokens ▸ hne), he.display?_value hshown⟩
  · have hheard : e.rawTokens = span.heard :=
      he.rawTokens_eq.trans (span.heardOutermost_eq hinside)
    have hvalue : e.rawValue = spaced span.heard := by rw [he.rawValue_eq, hheard]
    exact ⟨hvalue ▸ hr.cut?_rawText he (hheard ▸ hne), he.rawValue_eq⟩

theorem interpret_offsets_playPath :
    ∃ r e, playGraph.interpret upperConverters (playPath ["où"]) = .ok r ∧ r.entities = [e] ∧
      cut? r.text e.first e.last = some "OÙ" ∧ e.value.display? = some "OÙ" ∧
      cut? r.rawText e.rawFirst e.rawLast = some "où" := by
  have hok : playGraph.interpret upperConverters (playPath ["où"]) = .ok
      { intent := "Music", confidence := 1, text := "play OÙ", rawText := "play où"
        entities := [{ name := "song", value := .text "OÙ", rawValue := "où", source := none
                       first := 5, last := 7, rawFirst := 5, rawLast := 7, tokens := [.text "OÙ"]
                       rawTokens := ["où"] }]
        tokens := [.text "play", .text "OÙ"], rawTokens := ["play", "où"] } := rfl
  refine ⟨_, _, hok, rfl, ?_⟩
  obtain ⟨parts, -, hcontrols, hentities⟩ := interpret_offsets hok
  obtain ⟨span, -, -, hcut⟩ := hentities 0 _ rfl
  have hopens : parts.filterMap Part.opens? = ["song"] := by
    have hmarks := congrArg (List.filterMap Control.opened?) hcontrols
    rw [List.filterMap_filterMap] at hmarks
    exact hmarks
  obtain ⟨htext, hraw⟩ := hcut (span.opens?_of_lone hopens)
  obtain ⟨text, hshown, hcut, hvalue⟩ := htext (List.cons_ne_nil _ _)
  cases hshown
  exact ⟨hcut, hvalue, (hraw (List.cons_ne_nil _ _)).1⟩

/-! ## Ranges -/

namespace Span.Holds

variable {parts : List Part} {span : Span parts} {e : Entity}

/-- An entity ends where its span does, or before the space after what comes before it. -/
theorem first_le_last_iff (he : span.Holds e) :
    e.first ≤ e.last ↔ span.saidBefore = [] ∨ span.said ≠ [] := by
  have hbefore := @roomAll_eq_zero (span.saidBefore.map Value.shownText)
  have hsaid := @roomAll_eq_zero (span.said.map Value.shownText)
  rw [List.map_eq_nil_iff] at hbefore hsaid
  rw [he.first_eq, he.last_eq, List.map_append, Speech.roomAll_append, Ne, ← hbefore, ← hsaid]
  omega

theorem rawFirst_le_rawLast_iff (he : span.Holds e) :
    e.rawFirst ≤ e.rawLast ↔ span.heardBefore = [] ∨ span.heard ≠ [] := by
  have hbefore := @roomAll_eq_zero span.heardBefore
  have hheard := @roomAll_eq_zero span.heard
  rw [he.rawFirst_eq, he.rawLast_eq, Speech.roomAll_append, Ne, ← hbefore, ← hheard]
  omega

end Span.Holds

namespace Recognition.Of

variable {r : Recognition} {parts : List Part} {span : Span parts} {e : Entity}

theorem last_le_length (hr : r.Of parts) (he : span.Holds e) : e.last ≤ r.text.length := by
  rw [hr.text_eq_spaced span, length_spaced, he.last_eq, List.map_append]
  simp only [Speech.roomAll_append]
  omega

theorem rawLast_le_length (hr : r.Of parts) (he : span.Holds e) :
    e.rawLast ≤ r.rawText.length := by
  rw [hr.rawText_eq_spaced span, length_spaced, he.rawLast_eq]
  simp only [Speech.roomAll_append]
  omega

end Recognition.Of

/-- Whatever is recognized is what some path means. -/
theorem Graph.exists_of_interpretAll_ok {g : Graph} {cs : Converters} :
    ∀ {l : List (Path × Option Float)} {rs : List Recognition}, g.interpretAll cs l = .ok rs →
      ∀ r ∈ rs, ∃ q ∈ l, g.interpret cs q.1 q.2 = .ok r
  | [], rs, h, r, hr => by
      cases h
      cases hr
  | (p, cost) :: rest, rs, h, r, hr => by
      rw [interpretAll] at h
      split at h
      next s hs =>
        obtain ⟨later, hlater, h⟩ := Except.bind_eq_ok.mp h
        cases h
        rcases List.mem_cons.mp hr with rfl | hr
        · exact ⟨_, List.mem_cons_self, hs⟩
        · obtain ⟨q, hq, hok⟩ := exists_of_interpretAll_ok hlater r hr
          exact ⟨q, List.mem_cons_of_mem _ hq, hok⟩
      next =>
        obtain ⟨q, hq, hok⟩ := exists_of_interpretAll_ok h r hr
        exact ⟨q, List.mem_cons_of_mem _ hq, hok⟩
      next => cases h

/-- Every entity that is recognized ends within the texts.  It does not end before it
starts exactly if something is said in its span or nothing is said before it, and
likewise for what is heard. -/
theorem recognize_offsets {g : Graph} {o : RecognizeOptions} {cs : Converters}
    {tokens : List String} {rs : List Recognition} (h : g.recognize o cs tokens = .ok rs) :
    ∀ r ∈ rs, ∃ q ∈ g.candidates o tokens, g.interpret cs q.1 q.2 = .ok r ∧
      ∃ parts, g.parts cs q.1 = .ok parts ∧
        parts.filterMap Part.control? = (g.controls q.1).filter Control.isEntity ∧
        ∀ k e, r.entities[k]? = some e → ∃ span : Span parts,
          span.position = k ∧ span.name = e.name ∧
          e.last ≤ r.text.length ∧ e.rawLast ≤ r.rawText.length ∧
          (e.first ≤ e.last ↔ span.saidBefore = [] ∨ span.said ≠ []) ∧
          (e.rawFirst ≤ e.rawLast ↔ span.heardBefore = [] ∨ span.heard ≠ []) := by
  intro r hr
  obtain ⟨q, hq, hok⟩ := Graph.exists_of_interpretAll_ok h r hr
  obtain ⟨parts, hparts, hof⟩ := interpret_spans hok
  refine ⟨q, hq, hok, parts, hparts, Graph.controls_parts hparts, fun k e hk => ?_⟩
  obtain ⟨span, hposition, he⟩ := hof.exists_span hk
  exact ⟨span, hposition, he.name_eq.symm, hof.last_le_length he, hof.rawLast_le_length he,
    he.first_le_last_iff, he.rawFirst_le_rawLast_iff⟩

/-- `set [the]{article} lamp`, where the article need not be heard. -/
def setSentence : Sentence :=
  ⟨"set [the]\x7barticle\x7d lamp",
    [.plain "set",
      .seq .alternative "the" [.plain "the", .emptyWord] {} (some { name := "article" }),
      .plain "lamp"]⟩

def setCorpus : Corpus := ⟨[⟨"Lamp", [.sentence setSentence]⟩]⟩

def setGraph : Graph where
  nodes := #[⟨none, #[0]⟩, ⟨none, #[1]⟩, ⟨some "set", #[2]⟩, ⟨none, #[3, 4]⟩, ⟨some "the", #[5]⟩,
    ⟨some "", #[6]⟩, ⟨none, #[7]⟩, ⟨none, #[8]⟩, ⟨some "lamp", #[9]⟩, ⟨none, #[]⟩]
  edges := #[{ source := 0, target := 1, output := "__label__Lamp" },
    { source := 1, target := 2, input := "set", output := "set" },
    { source := 2, target := 3, output := "__begin__article" },
    { source := 3, target := 4, input := "the", output := "the" },
    { source := 3, target := 5 },
    { source := 4, target := 6 },
    { source := 5, target := 6 },
    { source := 6, target := 7, output := "__end__article" },
    { source := 7, target := 8, input := "lamp", output := "lamp" },
    { source := 8, target := 9 }]
  start := some 0
  final := some 9

/-- Training on one sentence compiles it, where no word in it is a number and nothing
has to be looked up. -/
theorem train_of_prepare {intent : String} {s : Sentence} {g : Graph}
    (hprepare : Trainer.new.prepare ⟨[⟨intent, [.sentence s]⟩]⟩ = .ok ([(intent, [s])], []))
    (hg : Graph.ofSentences [(intent, [s])] [] = .ok g) :
    Trainer.new.train ⟨[⟨intent, [.sentence s]⟩]⟩ = .ok g := by
  rw [Trainer.train, hprepare]
  exact congrArg (Except.mapError TrainError.reference) hg

theorem train_setCorpus : Trainer.new.train setCorpus = .ok setGraph := by
  have hunfold : setSentence.unfold [] "Lamp" =
      .seq .group [.word "set" {} none,
        .seq .alternative [.word "the" {} none, .word "" {} none] {} (some { name := "article" }),
        .word "lamp" {} none] {} none := by
    simp [Sentence.unfold, Sentence.toExpr, setSentence, unfold, unfoldAll, Expr.plain,
      Expr.emptyWord]
  exact train_of_prepare rfl ((ofSentences_singleton hunfold).trans rfl)

/-- Where the article is heard, it ends within the texts. -/
theorem recognize_offsets_setGraph :
    ∃ r e, setGraph.recognize ({ tolerant := false } : RecognizerConfig).options {}
        ["set", "the", "lamp"] = .ok [r] ∧ r.entities = [e] ∧
      e.last ≤ r.text.length ∧ e.rawLast ≤ r.rawText.length ∧
      ∃ parts, ∃ span : Span parts, span.name = "article" ∧
        (e.first ≤ e.last ↔ span.saidBefore = [] ∨ span.said ≠ []) ∧
        (e.rawFirst ≤ e.rawLast ↔ span.heardBefore = [] ∨ span.heard ≠ []) := by
  have hok : setGraph.recognize ({ tolerant := false } : RecognizerConfig).options {}
      ["set", "the", "lamp"] = .ok
        [{ intent := "Lamp", confidence := 1, text := "set the lamp", rawText := "set the lamp"
           entities := [{ name := "article", value := .text "the", rawValue := "the", source := none
                          first := 4, last := 7, rawFirst := 4, rawLast := 7
                          tokens := [.text "the"], rawTokens := ["the"] }]
           tokens := [.text "set", .text "the", .text "lamp"]
           rawTokens := ["set", "the", "lamp"] }] := rfl
  refine ⟨_, _, hok, rfl, ?_⟩
  obtain ⟨_, -, -, parts, -, -, hentities⟩ := recognize_offsets hok _ (List.mem_singleton_self _)
  obtain ⟨span, -, hname, hlast, hrawLast, hfirst, hrawFirst⟩ := hentities 0 _ rfl
  exact ⟨hlast, hrawLast, parts, span, hname, hfirst, hrawFirst⟩

/-- Where it is not heard, it ends before it starts. -/
theorem article_not_inRange_setGraph :
    Trainer.new.train setCorpus = .ok setGraph ∧
      ∃ r e, setGraph.recognize ({ tolerant := false } : RecognizerConfig).options {}
          ["set", "lamp"] = .ok [r] ∧ r.entities = [e] ∧
        ¬ e.first ≤ e.last ∧ ¬ e.rawFirst ≤ e.rawLast := by
  refine ⟨train_setCorpus,
    { intent := "Lamp", confidence := 1, text := "set lamp", rawText := "set lamp", entities := [_]
      tokens := [.text "set", .text "lamp"], rawTokens := ["set", "lamp"] },
    { name := "article", value := .text "", rawValue := "", source := none, first := 4, last := 3
      rawFirst := 4, rawLast := 3, tokens := [], rawTokens := [] },
    rfl, rfl, by decide, by decide⟩

end Utterance
