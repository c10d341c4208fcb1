import Utterance.Proofs.Recognition.Meaning
import Utterance.Proofs.Recognition.Showing
import Utterance.Proofs.Recognition.StopWords
import Utterance.Proofs.Search.Enumeration

/-!
# Dates without interchange format

A date-time before year 0 has no interchange format.  It has a text all the same,
but an object with such a date-time in it has none.

Where no entities are opened, a path fails for the want of a text exactly if
converting does, or leaves a value without one (`interpret_eq_undisplayable_iff`).
So the one way there is for built-in converters to fail like that, a path that
closes both `object` and `datetime`, is taken by the template `*!datetime!object`,
exactly for the words that mean such a date-time
(`undisplayable_only_of_object_datetime`).
-/

namespace Utterance

/-! ## Paths without entities -/

namespace Speech

theorem add_of_steering? {p : Part} (hp : p.steering? = none) (s : Speech) :
    s.add p = match p.said.value? with
      | some v => (s.hear p.heard).say v
      | none => .ok (s.hear p.heard) := by
  unfold Part.steering? at hp
  unfold add
  cases hsaid : p.said with
  | nothing => rfl
  | value v => rfl
  | control label =>
      rw [hsaid] at hp
      cases hp

/-- A value without a text is not passed by. -/
theorem foldlM_add_undisplayable : ∀ {parts : List Part} {s : Speech},
    (∀ p ∈ parts, p.steering? = none) → (∃ v ∈ saidValues parts, ¬ v.Displayable) →
      parts.foldlM add s = .error .undisplayable
  | [], _, _, ⟨_, hv, _⟩ => (List.not_mem_nil hv).elim
  | p :: parts, s, hparts, ⟨v, hv, hundisplayable⟩ => by
      have hrest : ∀ t : Speech, (∃ v ∈ saidValues parts, ¬ v.Displayable) →
          parts.foldlM add t = .error .undisplayable := fun t =>
        foldlM_add_undisplayable fun q hq => hparts q (List.mem_cons_of_mem _ hq)
      rw [saidValues_cons] at hv
      rw [List.foldlM_cons, add_of_steering? (hparts p List.mem_cons_self)]
      cases hsaid : p.said.value? with
      | none =>
          rw [hsaid] at hv
          exact hrest _ ⟨v, hv, hundisplayable⟩
      | some w =>
          by_cases hw : w.Displayable
          · obtain ⟨text, htext, -⟩ := exists_shown hw
            change ((s.hear p.heard).say w).bind _ = _
            rw [say_eq htext]
            refine hrest _ ⟨v, ?_, hundisplayable⟩
            rw [hsaid] at hv
            rcases List.mem_append.mp hv with hv | hv
            · exact absurd (List.mem_singleton.mp hv ▸ hw) hundisplayable
            · exact hv
          · have hnone : w.display? = none := Option.not_isSome_iff_eq_none.mp hw
            simp only [say, shown, hnone]
            rfl

end Speech

/-- The label is a word that is said, or the mark of a converter. -/
def Label.SaysOrConverts (label : String) : Prop :=
  Label.isControl label = false ∨ ∃ c, Control.read? label = some c ∧ c.isConverter = true

theorem Label.SaysOrConverts.intent? {label : String} (h : Label.SaysOrConverts label) :
    Label.intent? label = none := by
  refine Label.intent?_of_read? fun name hname => ?_
  rcases h with hplain | ⟨c, hc, hconverter⟩
  · rw [Control.read?_of_not_isControl hplain] at hname
    cases hname
  · rw [hname] at hc
    cases hc
    cases hconverter

theorem Label.SaysOrConverts.steering? {e : Emission} (h : Label.SaysOrConverts e.label) :
    e.steering? = none := by
  rcases h with hplain | ⟨c, hc, hconverter⟩
  · have hpart : e.part.steering? = none := by
      rw [Part.steering?, Emission.part, Said.ofLabel, hplain]
      cases e.label.isEmpty <;> rfl
    rw [Emission.steering?_of_passes (Control.read?_of_not_isControl hplain ▸ Control.passes_none)]
    exact hpart
  · rw [Emission.steering?, hc]
    cases c with
    | beginConvert key => rfl
    | endConvert key => rfl
    | _ => cases hconverter

namespace Graph

variable {g : Graph} {cs : Converters} {p : Path}

/-- These are the labels of the steps. -/
def Labelled (g : Graph) (p : Path) (labels : List String) : Prop :=
  List.Forall₂ (fun s label => g.label? s = some label) p labels

theorem Labelled.labels_eq {labels : List String} (h : g.Labelled p labels) :
    g.labels p = labels := by
  induction h with
  | nil => rfl
  | @cons s label p labels hlabel _ ih =>
      rw [Graph.labels, List.map_cons, hlabel]
      exact congrArg (label :: ·) ih

theorem Labelled.exists_mem {labels : List String} (h : g.Labelled p labels) :
    ∀ s ∈ p, ∃ label ∈ labels, g.label? s = some label := by
  induction h with
  | nil => exact fun _ hs => (List.not_mem_nil hs).elim
  | @cons s label p labels hlabel _ ih =>
      intro t ht
      rcases List.mem_cons.mp ht with rfl | ht
      · exact ⟨label, List.mem_cons_self, hlabel⟩
      · obtain ⟨label', hmem, hlabel'⟩ := ih t ht
        exact ⟨label', List.mem_cons_of_mem _ hmem, hlabel'⟩

/-- After the label of an intent come words that are said and marks of converters. -/
theorem interpret_eq_undisplayable_iff {s : PathStep} {intent : String} {labels : List String}
    (hfirst : g.label? s = some (Control.intent intent).text) (hp : g.Labelled p labels)
    (hlabels : ∀ label ∈ labels, Label.SaysOrConverts label) (cost : Option Float) :
    g.interpret cs (s :: p) cost = .error .undisplayable ↔
      ¬ Avoids .undisplayable ((Talk.run cs {} labels).bind Talk.result)
        fun values => ∀ v ∈ values, v.Displayable := by
  have hlabel? : ∀ t ∈ p, ∃ label, g.label? t = some label ∧ Label.SaysOrConverts label :=
    fun t ht => by
      obtain ⟨label, hmem, hlabel⟩ := hp.exists_mem t ht
      exact ⟨label, hlabel, hlabels label hmem⟩
  obtain ⟨hes, hcounts, hrest⟩ := emissions_after_intent hfirst fun t ht =>
    (hlabel? t ht).imp fun _ h => ⟨h.1, h.2.intent?⟩
  have hsteering : ∀ e ∈ (p.map g.emissionAt).filter Emission.counts, e.steering? = none := by
    intro e he
    obtain ⟨t, ht, rfl⟩ := List.mem_map.mp (List.mem_filter.mp he).1
    obtain ⟨label, hlabel, hsays⟩ := hlabel? t ht
    refine Label.SaysOrConverts.steering? ?_
    rw [emissionAt, hlabel]
    exact hsays
  have hvalues := convertParts_values cs ((p.map g.emissionAt).filter Emission.counts) [] []
  change (convertParts cs [] _).map saidValues = talkOf cs _ at hvalues
  rw [talkOf_filter_counts hrest, map_emissionAt_label, hp.labels_eq] at hvalues
  rw [← hvalues, interpret, hes]
  change (convertParts cs [] _).bind _ = _ ↔ _
  rw [hcounts]
  cases hparts : convertParts cs [] ((p.map g.emissionAt).filter Emission.counts) with
  | error err =>
      change Except.error err = _ ↔ ¬ err ≠ _
      rw [not_not, Except.error.injEq]
  | ok parts =>
      have hplain : ∀ q ∈ parts, q.steering? = none := by
        have hnone := convertParts_steering hparts
        rw [List.filterMap_eq_nil_iff.mpr hsteering] at hnone
        exact List.filterMap_eq_nil_iff.mp hnone
      by_cases hshown : ∀ v ∈ saidValues parts, v.Displayable
      · exact iff_of_false (Speech.avoids_take hshown _).ne (not_not_intro hshown)
      · refine iff_of_true ?_ hshown
        have hfold : parts.foldlM Speech.add {} = .error .undisplayable :=
          Speech.foldlM_add_undisplayable hplain (by simpa using hshown)
        change (Speech.ofParts parts).bind _ = _
        rw [Speech.ofParts, hfold]
        rfl

/-- If all candidates fail alike or none does, so does recognizing. -/
theorem recognize_eq_undisplayable_iff {o : RecognizeOptions} {tokens : List String} {E : Prop}
    (hne : g.candidates o tokens ≠ [])
    (h : ∀ q ∈ g.candidates o tokens, g.interpret cs q.1 q.2 = .error .undisplayable ↔ E) :
    g.recognize o cs tokens = .error .undisplayable ↔ E := by
  refine ⟨fun herr => ?_, fun hE => ?_⟩
  · obtain ⟨q, hq, herr⟩ := exists_of_interpretAll_error herr
    exact (h q hq).mp herr
  · obtain ⟨q, rest, hcandidates⟩ := List.exists_cons_of_ne_nil hne
    have herr := (h q (hcandidates ▸ List.mem_cons_self)).mpr hE
    rw [recognize, hcandidates, interpretAll, herr]

end Graph

/-! ## What `datetime` and `object` make of words -/

theorem Convert.joined_texts (l : List String) : joined (l.map Value.text) = .ok (spaced l) := by
  have htexts : (l.map Value.text).mapM textOf = .ok l := by
    rw [List.mapM_map]
    change List.mapM (fun s => pure (id s)) l = _
    rw [List.mapM_pure, List.map_id]
    rfl
  rw [joined, htexts]
  rfl

theorem asText?_filter_texts (words : List String) :
    (words.map Value.text).filter (fun v => v.asText? != some "") =
      (words.filter (· ≠ "")).map Value.text := by
  rw [List.filter_map]
  refine congrArg _ (List.filter_congr fun word _ => ?_)
  by_cases hword : word = "" <;> simp [Value.asText?, hword]

theorem Convert.find_texts {α : Type} (what : String) (get? : String → Option α) (wrap : α → Value)
    (words args : List String) :
    find what get? wrap (words.map Value.text) args =
      match get? (spaced words) with
      | some a => .ok [wrap a]
      | none => reject ("no " ++ what ++ " in " ++ (spaced words).quoted) := by
  rw [find, joined_texts]
  rfl

/-- Both together fail to find a date, or leave an object with it. -/
theorem Converters.applyAll_datetime_object (x : Extractor) (words : List String) :
    (Converters.builtin x).applyAll ["datetime", "object"] (words.map Value.text) =
      match x.dateTime? (spaced (words.filter (· ≠ ""))) with
      | some t => .ok [.object [("value", .dateTime t)]]
      | none => .error (.conversion "datetime"
          ("no date or time in " ++ (spaced (words.filter (· ≠ ""))).quoted)) := by
  have hget : (Converters.builtin x).get? (("datetime".pieces ',').headD "") =
      some (Convert.find "date or time" x.dateTime? .dateTime) := rfl
  rw [applyAll, List.foldlM_cons, apply, hget]
  simp only [asText?_filter_texts, Convert.find_texts]
  cases x.dateTime? (spaced (words.filter (· ≠ ""))) with
  | none => rfl
  | some t => rfl

/-! ## The template `*!datetime!object` -/

/-- Any words, as the date-time that they mean and as an object with it. -/
def remindSentence : Sentence :=
  ⟨"*!datetime!object", [.word "*" { converters := ["datetime", "object"] } none]⟩

def remindGraph : Graph where
  nodes := #[⟨none, #[0]⟩, ⟨none, #[1]⟩, ⟨none, #[2]⟩, ⟨none, #[3, 4]⟩, ⟨some "*", #[5]⟩,
    ⟨none, #[6]⟩, ⟨none, #[7]⟩, ⟨none, #[]⟩]
  edges := #[{ source := 0, target := 1, output := "__label__Remind" },
    { source := 1, target := 2, output := "__convert__object" },
    { source := 2, target := 3, output := "__convert__datetime" },
    { source := 3, target := 3, input := "*", output := "*" },
    { source := 3, target := 4, input := "*", output := "*" },
    { source := 4, target := 5, output := "__converted__datetime" },
    { source := 5, target := 6, output := "__converted__object" },
    { source := 6, target := 7 }]
  start := some 0
  final := some 7

theorem ofSentences_remindSentence :
    Graph.ofSentences [("Remind", [remindSentence])] [] = .ok remindGraph := by
  have hunfold : remindSentence.unfold [] "Remind" =
      .seq .group [.word "*" { converters := ["datetime", "object"] } none] {} none := by
    simp [Sentence.unfold, Sentence.toExpr, remindSentence, unfold, unfoldAll]
  exact (ofSentences_singleton hunfold).trans rfl

theorem valid_remindGraph : remindGraph.Valid :=
  (ascending_ofSentences ofSentences_remindSentence).valid

theorem acyclic_remindGraph : remindGraph.Acyclic fun e => e.isEpsilon :=
  (ascending_ofSentences ofSentences_remindSentence).acyclic

section

variable {o : SearchOptions} {p : Path}

/-- The steps after the words. -/
def remindEnd : Path := [⟨4, 5, []⟩, ⟨5, 6, []⟩, ⟨6, 7, []⟩]

/-- The labels of the steps after the words. -/
def remindEndLabels : List String := ["__converted__datetime", "__converted__object", ""]

theorem follows_remindEnd : remindGraph.Follows (Edge.Hears o) 4 remindEnd 7 :=
  .cons rfl (Edge.hears_nil rfl rfl) (.cons rfl (Edge.hears_nil rfl rfl)
    (.cons rfl (Edge.hears_nil rfl rfl) (.nil 7)))

theorem eq_remindEnd (hp : remindGraph.Follows (Edge.Hears o) 4 p 7) : p = remindEnd := by
  obtain ⟨q₁, rfl, h₁⟩ := hp.of_silent valid_remindGraph (b := 5) (by decide) rfl rfl rfl
  obtain ⟨q₂, rfl, h₂⟩ := h₁.of_silent valid_remindGraph (b := 6) (by decide) rfl rfl rfl
  obtain ⟨q₃, rfl, h₃⟩ := h₂.of_silent valid_remindGraph (b := 7) (by decide) rfl rfl rfl
  cases h₃ with
  | nil => rfl
  | cons he _ _ =>
      have hnone : ∀ t, remindGraph.edge? 7 t = none := fun _ => rfl
      cases (hnone _).symm.trans he

/-- On the way through the wildcard all words are said. -/
theorem labelled_words : (∀ t ∈ p.tokens, Label.isControl t = false) →
    remindGraph.Follows (Edge.Hears o) 3 p 7 →
      remindGraph.Labelled p (p.tokens ++ remindEndLabels) := by
  induction p with
  | nil =>
      intro _ hp
      cases hp
  | cons s p ih =>
      intro hplain hp
      obtain ⟨e, he, matched, q, heq, hhears, hq⟩ := hp.exists_cons valid_remindGraph (by decide)
      have hedges : remindGraph.edgesFrom 3 =
          [{ source := 3, target := 3, input := "*", output := "*" },
            { source := 3, target := 4, input := "*", output := "*" }] := rfl
      rw [hedges, List.mem_cons, List.mem_singleton] at he
      have hinput : e.input ≠ "" := by rcases he with rfl | rfl <;> decide
      obtain ⟨token, rfl⟩ : ∃ token, matched = [token] := by
        rcases hhears.2 with ⟨hsilent, -⟩ | ⟨-, token, rfl, -⟩
        · exact absurd hsilent hinput
        · exact ⟨token, rfl⟩
      cases heq
      have htoken : Label.unpack? token = some token := Label.unpack?_of_not_packed
        (Label.not_mark_of_not_isControl (hplain token List.mem_cons_self))
      have hrest : ∀ t ∈ Path.tokens p, Label.isControl t = false := fun t ht =>
        hplain t (List.mem_cons_of_mem _ ht)
      rcases he with rfl | rfl
      · exact .cons htoken (ih hrest hq)
      · obtain rfl := eq_remindEnd hq
        exact .cons htoken (.cons rfl (.cons rfl (.cons rfl .nil)))

/-- The labels of the path after the first one, where these words are heard. -/
def remindLabels (words : List String) : List String :=
  ["__convert__object", "__convert__datetime"] ++ (words ++ remindEndLabels)

theorem saysOrConverts_remindLabels {words : List String}
    (hplain : ∀ t ∈ words, Label.isControl t = false) :
    ∀ label ∈ remindLabels words, Label.SaysOrConverts label := by
  intro label hlabel
  have hconvert : ∀ c : Control, c.isConverter = true → Label.SaysOrConverts c.text := fun c hc =>
    .inr ⟨c, c.read?_text, hc⟩
  simp only [remindLabels, remindEndLabels, List.mem_append, List.mem_cons, List.not_mem_nil,
    or_false] at hlabel
  rcases hlabel with (rfl | rfl) | hword | rfl | rfl | rfl
  · exact hconvert (.beginConvert "object") rfl
  · exact hconvert (.beginConvert "datetime") rfl
  · exact .inl (hplain label hword)
  · exact hconvert (.endConvert "datetime") rfl
  · exact hconvert (.endConvert "object") rfl
  · exact .inl (by decide)

theorem labelled_of_run {tokens : List String} (hplain : ∀ t ∈ tokens, Label.isControl t = false)
    (hp : remindGraph.Run o tokens p) :
    ∃ q, p = ⟨0, 1, []⟩ :: q ∧ remindGraph.Labelled q (remindLabels tokens) := by
  obtain ⟨⟨start, final, hstart, hfinal, hp⟩, rfl⟩ := hp
  obtain rfl : 0 = start := Option.some.inj hstart
  obtain rfl : 7 = final := Option.some.inj hfinal
  obtain ⟨q₁, rfl, h₁⟩ := hp.of_silent valid_remindGraph (b := 1) (by decide) rfl rfl rfl
  obtain ⟨q₂, rfl, h₂⟩ := h₁.of_silent valid_remindGraph (b := 2) (by decide) rfl rfl rfl
  obtain ⟨q₃, rfl, h₃⟩ := h₂.of_silent valid_remindGraph (b := 3) (by decide) rfl rfl rfl
  exact ⟨_, rfl, .cons rfl (.cons rfl (labelled_words hplain h₃))⟩

theorem exists_follows_words : ∀ {tokens : List String}, tokens ≠ [] →
    ∃ q, remindGraph.Follows (Edge.Hears o) 3 q 7 ∧ Path.tokens q = tokens
  | [], hne => absurd rfl hne
  | [token], _ => ⟨⟨3, 4, [token]⟩ :: remindEnd,
      .cons rfl (Edge.hears_wildcard rfl rfl token) follows_remindEnd, rfl⟩
  | token :: next :: rest, _ => by
      obtain ⟨q, hq, htokens⟩ := exists_follows_words (List.cons_ne_nil next rest)
      exact ⟨⟨3, 3, [token]⟩ :: q, .cons rfl (Edge.hears_wildcard rfl rfl token) hq,
        congrArg (token :: ·) htokens⟩

theorem exists_run_remindGraph (haccepts : o.accepts "Remind" = true) {tokens : List String}
    (hne : tokens ≠ []) : ∃ p, remindGraph.Run o tokens p := by
  obtain ⟨q, hq, htokens⟩ := exists_follows_words (o := o) hne
  have hpermits : ∀ intent, Label.intent? "__label__Remind" = some intent →
      o.accepts intent = true := by
    intro intent hintent
    obtain rfl : "Remind" = intent := Option.some.inj hintent
    exact haccepts
  exact ⟨⟨0, 1, []⟩ :: ⟨1, 2, []⟩ :: ⟨2, 3, []⟩ :: q,
    ⟨0, 7, rfl, rfl, .cons rfl ⟨hpermits, .inl ⟨rfl, rfl⟩⟩ (.cons rfl (Edge.hears_nil rfl rfl)
      (.cons rfl (Edge.hears_nil rfl rfl) hq))⟩, htokens⟩

end

/-- What talks come to that say the same up to empty texts has a text or not. -/
theorem Talk.Says.avoids_result {values : Except InterpretError (List Value)}
    {r : Except InterpretError Talk} (h : Says {} values r) :
    Avoids .undisplayable (r.bind Talk.result) (fun vs => ∀ v ∈ vs, v.Displayable) ↔
      Avoids .undisplayable values fun vs => ∀ v ∈ vs, v.Displayable := by
  have hfilter : ∀ vs : List Value,
      (∀ v ∈ withoutEmpty vs, v.Displayable) ↔ ∀ v ∈ vs, v.Displayable := by
    refine fun vs => ⟨fun hvs v hv => ?_, fun hvs v hv => hvs v (List.mem_filter.mp hv).1⟩
    by_cases hempty : v.asText? = some ""
    · cases v with
      | text s => rfl
      | _ => cases hempty
    · exact hvs v (List.mem_filter.mpr ⟨hv, by simpa using hempty⟩)
  cases values with
  | error err =>
      rw [show r = .error err from h]
      exact Iff.rfl
  | ok vs =>
      obtain ⟨ws, rfl, hws⟩ := h
      change (∀ v ∈ ws, v.Displayable) ↔ ∀ v ∈ vs, v.Displayable
      rw [← hfilter ws, hws, hfilter vs]

/-- The labels say what the converters make of the words. -/
theorem says_remindLabels (cs : Converters) {words : List String}
    (hplain : ∀ t ∈ words, Label.isControl t = false) :
    Talk.Says {} (cs.applyAll ["datetime", "object"] (words.map Value.text))
      (Talk.run cs {} (remindLabels words)) := by
  have hwords := @Talk.says_plain cs words hplain (({} : Talk).opens ["datetime", "object"])
  have hclosed := @Talk.Says.endConvert cs _ _ _ _ hwords
  have hbegin : Talk.run cs {} ["__convert__object", "__convert__datetime"] =
      .ok (({} : Talk).opens ["datetime", "object"]) :=
    Talk.run_beginConvert {} ["object", "datetime"]
  -- the last label is empty
  have hend : ∀ t, Talk.run cs t remindEndLabels =
      Talk.run cs t ((["datetime", "object"].map Control.endConvert).map Control.text) :=
    fun t => (Talk.run_filter cs t remindEndLabels).symm
  rw [remindLabels, Talk.run_append, hbegin, Except.bind, Talk.run_append, funext hend]
  exact hclosed

/-- The words that mean a date-time without interchange format leave a value without
a text, and no others do. -/
theorem avoids_remindLabels (x : Extractor) {words : List String}
    (hplain : ∀ t ∈ words, Label.isControl t = false) :
    Avoids .undisplayable
        ((Talk.run (Converters.builtin x) {} (remindLabels words)).bind Talk.result)
        (fun values => ∀ v ∈ values, v.Displayable) ↔
      ∀ t, x.dateTime? (spaced (words.filter (· ≠ ""))) = some t → t.hasShortForm = true := by
  rw [(says_remindLabels _ hplain).avoids_result, Converters.applyAll_datetime_object]
  cases x.dateTime? (spaced (words.filter (· ≠ ""))) with
  | none =>
      refine iff_of_true (fun h => ?_) fun t h => ?_
      · cases h
      · cases h
  | some t =>
      change (∀ v ∈ [Value.object [("value", .dateTime t)]], v.Displayable) ↔ _
      rw [List.forall_mem_singleton, Value.displayable_object, Value.exports_object,
        List.forall_mem_singleton, Value.exports_dateTime]
      exact ⟨fun h u hu => Option.some.inj hu ▸ h, fun h => h t rfl⟩

/-- An exact search for the template fails for the want of a text exactly on the
words that mean a date-time without interchange format. -/
theorem recognize_remindGraph (x : Extractor) {c : RecognizerConfig} (htolerant : c.tolerant = false)
    (hintents : c.intents = none) (hpaths : c.maxPaths = none) {tokens : List String}
    (hne : tokens ≠ []) (hplain : ∀ t ∈ tokens, Label.isControl t = false) :
    remindGraph.recognize c.options (Converters.builtin x) tokens = .error .undisplayable ↔
      ∃ t, x.dateTime? (spaced (tokens.filter (· ≠ ""))) = some t ∧ t.hasShortForm = false := by
  have haccepts : c.options.search.accepts "Remind" = true := by
    rw [RecognizerConfig.options, hintents]
  have hruns : ∀ p, p ∈ remindGraph.exactPaths c.options.search tokens ↔
      remindGraph.Run c.options.search tokens p := fun p =>
    Graph.mem_exactPaths_iff_run valid_remindGraph acyclic_remindGraph rfl hne
  obtain ⟨p, hp⟩ := exists_run_remindGraph haccepts hne
  have hfound : remindGraph.exactPaths c.options.search tokens ≠ [] :=
    List.ne_nil_of_mem ((hruns p).mpr hp)
  have hcandidates : remindGraph.candidates c.options tokens =
      (remindGraph.exactPaths c.options.search tokens).map fun p => (p, none) := by
    have hexact : c.options.tolerant = false := htolerant
    have hlimit : c.options.maxPaths = none := hpaths
    rw [Graph.candidates, hexact, if_neg Bool.false_ne_true,
      Graph.exactOrSparse_of_ne_nil (by rwa [hlimit]), hlimit]
  refine Graph.recognize_eq_undisplayable_iff ?_ fun q hq => ?_
  · rw [hcandidates]
    exact mt List.map_eq_nil_iff.mp hfound
  · rw [hcandidates] at hq
    obtain ⟨p, hp, rfl⟩ := List.mem_map.mp hq
    obtain ⟨q, rfl, hlabelled⟩ := labelled_of_run hplain ((hruns p).mp hp)
    have hfirst : remindGraph.label? ⟨0, 1, []⟩ = some (Control.intent "Remind").text := rfl
    rw [Graph.interpret_eq_undisplayable_iff hfirst hlabelled (saysOrConverts_remindLabels hplain),
      avoids_remindLabels x hplain]
    simp

/-- With built-in converters, whatever finds values in text, recognizing fails for
the want of a text only if a path that is considered closes both `object` and
`datetime`.  Such a path does fail on the words that mean a date-time without
interchange format, and only on those. -/
theorem undisplayable_only_of_object_datetime (x : Extractor) :
    (∀ (g : Graph) (c : RecognizerConfig) (tokens : List String),
      (∀ q ∈ g.candidates c.options tokens,
        ¬ (g.Closes q.1 "object" ∧ g.Closes q.1 "datetime")) →
        g.recognize c.options (Converters.builtin x) tokens ≠ .error .undisplayable) ∧
      Graph.ofSentences [("Remind", [remindSentence])] [] = .ok remindGraph ∧
      ∀ c : RecognizerConfig, c.tolerant = false → c.intents = none → c.maxPaths = none →
        ∀ tokens : List String, tokens ≠ [] → (∀ t ∈ tokens, Label.isControl t = false) →
          (remindGraph.recognize c.options (Converters.builtin x) tokens = .error .undisplayable ↔
            ∃ t, x.dateTime? (spaced (tokens.filter (· ≠ ""))) = some t ∧
              t.hasShortForm = false) :=
  ⟨fun _ _ _ h => Graph.recognize_ne_undisplayable h, ofSentences_remindSentence,
    fun _ htolerant hintents hpaths _ hne hplain =>
      recognize_remindGraph x htolerant hintents hpaths hne hplain⟩

/-- Any words, as the date-time that they mean. -/
def dateSentence : Sentence := ⟨"*!datetime", [.word "*" { converters := ["datetime"] } none]⟩

def dateGraph : Graph where
  nodes := #[⟨none, #[0]⟩, ⟨none, #[1]⟩, ⟨none, #[2, 3]⟩, ⟨some "*", #[4]⟩, ⟨none, #[5]⟩, ⟨none, #[]⟩]
  edges := #[{ source := 0, target := 1, output := "__label__Remind" },
    { source := 1, target := 2, output := "__convert__datetime" },
    { source := 2, target := 2, input := "*", output := "*" },
    { source := 2, target := 3, input := "*", output := "*" },
    { source := 3, target := 4, output := "__converted__datetime" },
    { source := 4, target := 5 }]
  start := some 0
  final := some 5

theorem ofSentences_dateSentence :
    Graph.ofSentences [("Remind", [dateSentence])] [] = .ok dateGraph := by
  have hunfold : dateSentence.unfold [] "Remind" =
      .seq .group [.word "*" { converters := ["datetime"] } none] {} none := by
    simp [Sentence.unfold, Sentence.toExpr, dateSentence, unfold, unfoldAll]
  exact (ofSentences_singleton hunfold).trans rfl

/-- Reads English on the first day of year 0; the day before has no interchange
format. -/
def yearZero : Extractor := English.extractor (DateTime.ofUnix (-62167219200) 0)

theorem dateTime?_yearZero :
    yearZero.dateTime? "yesterday" = some ⟨-62167305600000000000, 0⟩ ∧
      DateTime.hasShortForm ⟨-62167305600000000000, 0⟩ = false := by
  decide

/-- Without `object` there is a text for the same words. -/
theorem recognize_dateGraph :
    Graph.ofSentences [("Remind", [dateSentence])] [] = .ok dateGraph ∧
      dateGraph.recognize ({ tolerant := false } : RecognizerConfig).options
        (Converters.builtin yearZero) ["yesterday"] ≠ .error .undisplayable ∧
      (remindGraph.recognize ({ tolerant := false } : RecognizerConfig).options
          (Converters.builtin yearZero) ["yesterday"] = .error .undisplayable ↔
        ∃ t, yearZero.dateTime? "yesterday" = some t ∧ t.hasShortForm = false) := by
  obtain ⟨hsafe, -, hexact⟩ := undisplayable_only_of_object_datetime yearZero
  exact ⟨ofSentences_dateSentence, hsafe _ _ _ (by decide +kernel),
    hexact { tolerant := false } rfl rfl rfl ["yesterday"] (by decide) (by decide)⟩

theorem recognize_yesterday_undisplayable :
    Graph.ofSentences [("Remind", [remindSentence])] [] = .ok remindGraph ∧
      remindGraph.recognize ({ tolerant := false } : RecognizerConfig).options
        (Converters.builtin yearZero) ["yesterday"] = .error .undisplayable := by
  obtain ⟨hdate, hshort⟩ := dateTime?_yearZero
  exact ⟨ofSentences_remindSentence,
    (recognize_remindGraph yearZero rfl rfl rfl (by decide) (by decide)).mpr ⟨_, hdate, hshort⟩⟩

end Utterance
