import Utterance.Proofs.Compile.Ranges
import Utterance.Proofs.Recognition.Entities
import Utterance.Proofs.Recognition.Unambiguous

/-!
# Numbers that are recognized

A reading of a template with a range is a word and, inside an entity and two converters for
integers, the hidden words of a number with its digits behind them
(`RangeCommand.emissionsOf_reading`).  The inner converter makes a number of the digits, and the
outer one leaves it as it is (`RangeCommand.convertParts_emissions`).  So the entity has the
number as its value and the words as its raw value (`RangeCommand.ofParts_parts`).

All forms of the numbers are recognized, and nothing else is (`RangeCommand.recognize_form`,
`RangeCommand.recognize_other`).  `recognize_range` goes from the text of the template to these
recognitions.
-/

namespace Utterance

open Utterance.Graph

/-! ## What a reading gives -/

/-- The emission of a label that steers. -/
def Control.emission (c : Control) : Emission := ⟨"", c.text, []⟩

/-- The part of a label that steers. -/
def Control.part (c : Control) : Part := ⟨"", .control c.text, []⟩

theorem Emission.counts_iff {e : Emission} :
    e.counts = true ↔ e.intent? = none ∧ (e.raw ≠ "" ∨ e.label ≠ "") := by
  simp [counts]

/-- A label that is said gives itself. -/
theorem emissionsOf_saidMarks {label : String} (h : Label.Sayable label) (hne : label ≠ "") :
    emissionsOf (saidMarks [label]) = [⟨"", label, []⟩] := by
  have hemission : (⟨"", Label.pack label⟩ : Mark).emission = ⟨"", label, []⟩ := by
    rw [Mark.emission, h.mark ""]
    rfl
  rw [saidMarks, List.flatMap_singleton, emissionsOf_spelled, hemission]
  exact List.filter_cons_of_pos (Emission.counts_iff.mpr ⟨h.no_intent, .inr hne⟩)

theorem Control.emissionsOf_saidMarks {c : Control} (hc : ∀ name, c ≠ .intent name) :
    emissionsOf (saidMarks [c.text]) = [c.emission] := by
  refine Utterance.emissionsOf_saidMarks (Label.sayable_text hc) fun hempty => ?_
  have hcontrol := c.isControl_text
  rw [hempty] at hcontrol
  exact absurd hcontrol (by decide)

/-- A hidden word is only heard, whatever it looks like. -/
theorem emissionsOf_wordMarks_hidden {w : String} (hw : w ≠ "") :
    emissionsOf (wordMarks true w) = [⟨w, "", [w]⟩] := by
  have hlabel : (⟨w, ""⟩ : Mark).label? = some "" := Mark.label?_silent
  have hintent : Label.intent? "" = none := by decide
  rw [wordMarks, if_pos rfl, emissionsOf_spelled, Mark.emission, hlabel, if_neg hw]
  exact List.filter_cons_of_pos (Emission.counts_iff.mpr ⟨hintent, .inl hw⟩)

theorem Ordinary.sayable {w : String} (hw : Ordinary w) : Label.Sayable w :=
  Label.sayable_of_not_isControl hw.not_control

/-- A word is heard, and it is said unless it is hidden. -/
theorem Ordinary.emissionsOf_wordMarks {w : String} (hw : Ordinary w) (hidden : Bool) :
    emissionsOf (wordMarks hidden w) = [⟨w, if hidden then "" else w, [w]⟩] := by
  cases hidden with
  | true => exact emissionsOf_wordMarks_hidden hw.ne
  | false =>
      have hlabel : (⟨w, Label.pack w⟩ : Mark).label? = some w := hw.sayable.mark w
      rw [wordMarks, if_neg Bool.false_ne_true, emissionsOf_spelled, Mark.emission, hlabel,
        if_neg hw.ne]
      exact List.filter_cons_of_pos (Emission.counts_iff.mpr ⟨hw.sayable.no_intent, .inl hw.ne⟩)

theorem saidMarks_nil : saidMarks [] = [] := rfl

namespace Reading

/-- Without suffix and tag nothing is said around the marks. -/
theorem enclose_plain (hidden : Bool) (ms : List Mark) : enclose hidden {} none ms = ms := by
  cases hidden <;>
    simp [enclose, labelsBefore, labelsAfter, tagConverters, ownWords, tagSubstitution, saidMarks]

theorem emissionsOf_marksInTurn_words {ws : List String} (hws : ∀ w ∈ ws, Ordinary w) :
    emissionsOf (marksInTurn true (ws.map fun w => .word w {} none)) =
      ws.map fun w => ⟨w, "", [w]⟩ := by
  induction ws with
  | nil => rfl
  | cons w ws ih =>
      obtain ⟨hw, hws⟩ := List.forall_mem_cons.mp hws
      rw [List.map_cons, marksInTurn, emissionsOf_append, ih hws, marks, enclose_plain,
        hw.emissionsOf_wordMarks]
      rfl

/-- Words that are hidden are only heard. -/
theorem emissionsOf_marks_ofWords : ∀ {ws : List String}, (∀ w ∈ ws, Ordinary w) →
    emissionsOf ((ofWords ws).marks true) = ws.map fun w => ⟨w, "", [w]⟩
  | [w], hws => by
      rw [ofWords, marks, enclose_plain, (hws w (List.mem_singleton_self w)).emissionsOf_wordMarks]
      rfl
  | [], _ => rfl
  | w :: w' :: ws, hws => by
      rw [ofWords, marks, enclose_plain, Option.toList, List.flatMap_nil, List.append_nil,
        Bool.true_or, emissionsOf_marksInTurn_words hws]
      simp

end Reading

namespace RangeCommand

variable (c : RangeCommand)

/-- What a reading of the template gives: the word, and inside the entity and two converters the
words of the number, in whose place its digits are said. -/
def emissions (n : Int) (ws : List String) : List Emission :=
  ⟨c.word, c.word, [c.word]⟩ :: (Control.beginEntity c.tag).emission ::
    (Control.beginConvert Number.converter).emission ::
    (Control.beginConvert Number.converter).emission ::
    (ws.map (fun w => ⟨w, "", [w]⟩) ++
      [⟨"", n.repr, []⟩, (Control.endConvert Number.converter).emission,
        (Control.source Number.slotName).emission, (Control.endConvert Number.converter).emission,
        (Control.endEntity c.tag).emission])

theorem marks_reading (n : Int) (ws : List String) :
    (c.reading n ws).marks false =
      wordMarks false c.word ++ (saidMarks [(Control.beginEntity c.tag).text] ++
      (saidMarks [(Control.beginConvert Number.converter).text] ++
      (saidMarks [(Control.beginConvert Number.converter).text] ++
      ((Reading.ofWords ws).marks true ++
      (saidMarks [n.repr] ++ (saidMarks [(Control.endConvert Number.converter).text] ++
      (saidMarks [(Control.source Number.slotName).text] ++
      (saidMarks [(Control.endConvert Number.converter).text] ++
      saidMarks [(Control.endEntity c.tag).text])))))))) := by
  have hsubstitution : saidMarks [n.repr, (Control.endConvert Number.converter).text] =
      saidMarks [n.repr] ++ saidMarks [(Control.endConvert Number.converter).text] :=
    saidMarks_append [_] [_]
  simp [reading, Number.reading, Reading.marks, Reading.marksInTurn, Reading.enclose, isReplaced,
    labelsBefore, labelsAfter, tagConverters, ownWords, tagSubstitution, sourceMarks,
    c.slotBase_slot, saidMarks_nil, hsubstitution]

theorem emissionsOf_reading {ws : List String} (hws : ∀ w ∈ ws, Ordinary w) (n : Int) :
    emissionsOf ((c.reading n ws).marks false) = c.emissions n ws := by
  have hcontrol {d : Control} (hd : ∀ name, d ≠ .intent name) :=
    Control.emissionsOf_saidMarks hd
  have hbegin := @hcontrol (.beginEntity c.tag) fun _ => Control.noConfusion
  have hend := @hcontrol (.endEntity c.tag) fun _ => Control.noConfusion
  have hopen := @hcontrol (.beginConvert Number.converter) fun _ => Control.noConfusion
  have hclose := @hcontrol (.endConvert Number.converter) fun _ => Control.noConfusion
  have hsource := @hcontrol (.source Number.slotName) fun _ => Control.noConfusion
  have hdigits : emissionsOf (saidMarks [n.repr]) = [⟨"", n.repr, []⟩] :=
    emissionsOf_saidMarks (ordinary_repr n).sayable (ordinary_repr n).ne
  rw [marks_reading]
  simp only [emissionsOf_append, c.lettered_word.ordinary.emissionsOf_wordMarks, hbegin, hend,
    hopen, hclose, hsource, hdigits, Reading.emissionsOf_marks_ofWords hws]
  rfl

end RangeCommand

/-! ## From emissions to parts -/

section

variable {cs : Converters} {f : Frame} {outer : List Frame} {rest : List Emission}

theorem Ordinary.ofLabel {w : String} (hw : Ordinary w) : Said.ofLabel w = .value (.text w) := by
  have hempty : w.isEmpty = false := by simpa using hw.ne
  rw [Said.ofLabel, hempty, hw.not_control]
  rfl

theorem Ordinary.passes {w : String} (hw : Ordinary w) : Control.Passes (Control.read? w) := by
  rw [Control.read?_of_not_isControl hw.not_control]
  exact Control.passes_none

theorem Control.read?_emission (c : Control) : Control.read? c.emission.label = some c :=
  c.read?_text

/-- Inside a converter words that are only heard stay where they are. -/
theorem convertParts_heard (ws : List String) :
    convertParts cs (f :: outer) (ws.map (fun w => ⟨w, "", [w]⟩) ++ rest) =
      (convertParts cs (f :: outer) rest).map (ws.map (fun w => ⟨w, .nothing, [w]⟩) ++ ·) := by
  have hread : Control.read? "" = none := by decide
  induction ws with
  | nil =>
      rw [List.map_nil, List.nil_append]
      cases convertParts cs (f :: outer) rest <;> rfl
  | cons w ws ih =>
      rw [List.map_cons, List.cons_append, convertParts_passes_cons (hread ▸ Control.passes_none),
        ih]
      cases convertParts cs (f :: outer) rest <;> rfl

/-- Inside a converter a word that is said goes to its frame. -/
theorem convertParts_said {w : String} (hw : Ordinary w) :
    convertParts cs (f :: outer) (⟨"", w, []⟩ :: rest) =
      convertParts cs (f.add [⟨"", .value (.text w), []⟩] :: outer) rest := by
  have hpasses : Control.Passes (Control.read? (⟨"", w, []⟩ : Emission).label) := hw.passes
  rw [convertParts_passes_cons hpasses, Emission.part, hw.ofLabel]
  rfl

/-- A frame that is closed inside another one leaves its parts there. -/
theorem convertParts_close_cons {g : Frame} {parts : List Part} (hclose : f.close cs = .ok parts) :
    convertParts cs (f :: g :: outer) ((Control.endConvert f.key).emission :: rest) =
      convertParts cs (g.add parts :: outer) rest := by
  rw [convertParts_end (Control.read?_emission _), if_neg (by simp), hclose]
  rfl

theorem convertParts_close_nil {parts : List Part} (hclose : f.close cs = .ok parts) :
    convertParts cs [f] ((Control.endConvert f.key).emission :: rest) =
      (convertParts cs [] rest).map (parts ++ ·) := by
  rw [convertParts_end (Control.read?_emission _), if_neg (by simp), hclose]
  rfl

/-- A label that is no converter's stays where it is. -/
theorem convertParts_control {c : Control} (hc : c.isConverter = false) (frames : List Frame) :
    convertParts cs frames (c.emission :: rest) =
      (convertParts cs frames rest).map (c.part :: ·) := by
  have hpasses : Control.Passes (Control.read? c.emission.label) := by
    rw [Control.read?_emission]
    exact Control.passes_some hc
  have hpart : c.emission.part = c.part := by
    rw [Emission.part, Control.emission, c.ofLabel_text]
    rfl
  cases frames with
  | nil => rw [convertParts_passes_nil hpasses, hpart]
  | cons f outer =>
      rw [convertParts_passes_cons hpasses, hpart]
      rfl

/-- The frame of an integer gives the number that is said in it. -/
theorem Frame.close_int (x : Extractor) {v : Value} {n : Int} (hv : Convert.toInt v = .ok (.int n))
    (hne : v.asText? ≠ some "") :
    close (.builtin x) ⟨Number.converter, [⟨"", .value v, []⟩]⟩ =
      .ok [⟨"", .value (.int n), []⟩] := by
  have hname : name ⟨Number.converter, [⟨"", .value v, []⟩]⟩ = "int" :=
    (by decide : (Number.converter.pieces ',').headD "" = "int")
  have hget : (Converters.builtin x).get? "int" = some (Convert.each Convert.toInt) := rfl
  have hvalues : values ⟨Number.converter, [⟨"", .value v, []⟩]⟩ = [v] := by
    simp [values, Said.value?, hne]
  rw [close, hname, hget]
  simp only [hvalues, Convert.each, List.mapM_cons, hv, List.mapM_nil]
  rfl

end

theorem Convert.toInt_text {n : Int} (hn : Decimal.fitsInt64 n = true) :
    toInt (.text n.repr) = .ok (.int n) := by
  rw [toInt, Decimal.trim_repr, Decimal.readInt64_repr hn]

namespace RangeCommand

variable (c : RangeCommand)

/-- The parts of a reading: the number takes the place of its digits, behind its words. -/
def parts (n : Int) (ws : List String) : List Part :=
  ⟨c.word, .value (.text c.word), [c.word]⟩ :: (Control.beginEntity c.tag).part ::
    (ws.map (fun w => ⟨w, .nothing, [w]⟩) ++
      [(Control.source Number.slotName).part, ⟨"", .value (.int n), []⟩,
        (Control.endEntity c.tag).part])

theorem convertParts_emissions (x : Extractor) {n : Int} (hn : Decimal.fitsInt64 n = true)
    (ws : List String) : convertParts (.builtin x) [] (c.emissions n ws) = .ok (c.parts n ws) := by
  have hword := c.lettered_word.ordinary
  have hfirst : Control.Passes (Control.read? (⟨c.word, c.word, [c.word]⟩ : Emission).label) :=
    hword.passes
  have hpart : (⟨c.word, c.word, [c.word]⟩ : Emission).part =
      ⟨c.word, .value (.text c.word), [c.word]⟩ := by rw [Emission.part, hword.ofLabel]
  have hopen := (Control.beginConvert Number.converter).read?_emission
  have hadd : ∀ p, Frame.add { key := Number.converter } [p] = ⟨Number.converter, [p]⟩ :=
    fun _ => rfl
  -- the digits become a number in the inner frame, and the outer one leaves it as it is
  have hdigits := Frame.close_int x (Convert.toInt_text hn)
    (fun h => (ordinary_repr n).ne (Option.some.inj h))
  have hnumber := Frame.close_int x (v := .int n) rfl (by rintro ⟨⟩)
  rw [emissions, convertParts_passes_nil hfirst, hpart, convertParts_control rfl,
    convertParts_begin hopen, convertParts_begin hopen, convertParts_heard,
    convertParts_said (ordinary_repr n), hadd, convertParts_close_cons hdigits,
    convertParts_control rfl, hadd, convertParts_close_nil hnumber, convertParts_control rfl,
    convertParts]
  rfl

end RangeCommand

/-! ## From parts to the entity -/

namespace Speech

theorem hear_nil (s : Speech) : s.hear [] = s := by
  obtain ⟨opened, _, _, _, _, _⟩ := s
  cases opened <;> simp [hear, mapInnermost, roomAll]

theorem hear_hear (s : Speech) (l m : List String) : (s.hear l).hear m = s.hear (l ++ m) := by
  obtain ⟨opened, _, _, _, _, _⟩ := s
  cases opened <;> simp [hear, mapInnermost, Speech.roomAll_append, Nat.add_assoc]

/-- Words that are only heard are heard one after the other. -/
theorem foldlM_heard (ws : List String) :
    ∀ s : Speech, (ws.map fun w => (⟨w, .nothing, [w]⟩ : Part)).foldlM add s = .ok (s.hear ws) := by
  induction ws with
  | nil => exact fun s => congrArg Except.ok s.hear_nil.symm
  | cons w ws ih =>
      intro s
      rw [List.map_cons, List.foldlM_cons]
      change List.foldlM add (s.hear [w]) _ = _
      rw [ih, hear_hear, List.singleton_append]

section

variable (s : Speech)

theorem add_value {v : Value} {text : String} (h : shown v = .ok text) (hne : text.isEmpty = false)
    (raw : String) (matched : List String) :
    s.add ⟨raw, .value v, matched⟩ =
      .ok ((s.hear (Part.heard ⟨raw, .value v, matched⟩)).note v text) := by
  change Speech.say _ v = _
  rw [say_eq h, hne]
  rfl

theorem add_begin (name : String) :
    s.add (Control.beginEntity name).part = .ok (s.openEntity name) := by
  have hheard : (Control.beginEntity name).part.heard = [] := rfl
  rw [add, hheard, hear_nil]
  simp only [Control.part, Control.read?_text]

theorem add_source (slot : String) :
    s.add (Control.source slot).part =
      .ok (s.mapInnermost fun e => { e with source := some slot }) := by
  have hheard : (Control.source slot).part.heard = [] := rfl
  rw [add, hheard, hear_nil]
  simp only [Control.part, Control.read?_text]

theorem add_end (name : String) :
    s.add (Control.endEntity name).part =
      s.closeEntity (Control.endEntity name).text name := by
  have hheard : (Control.endEntity name).part.heard = [] := rfl
  rw [add, hheard, hear_nil]
  simp only [Control.part, Control.read?_text]

end

end Speech

namespace RangeCommand

variable (c : RangeCommand)

/-- The entity that the number becomes. -/
def entity (n : Int) (ws : List String) : Entity where
  name := c.tag
  value := .int n
  rawValue := spaced ws
  source := some Number.slotName
  first := room c.word
  last := room c.word + room n.repr - 1
  rawFirst := room c.word
  rawLast := room c.word + roomAll ws - 1
  tokens := [.int n]
  rawTokens := ws

/-- What is taken down of the word and of a number that is heard in the words `ws`. -/
def speech (n : Int) (ws : List String) : Speech where
  entities := [c.entity n ws]
  tokens := [.text c.word, .int n]
  rawTokens := c.word :: ws
  offset := room c.word + room n.repr
  rawOffset := room c.word + roomAll ws

theorem ofParts_parts (n : Int) (ws : List String) :
    Speech.ofParts (c.parts n ws) = .ok (c.speech n ws) := by
  have hword : c.word.isEmpty = false := by simpa using c.lettered_word.ne
  have hdigits : n.repr.isEmpty = false := by simpa using Decimal.repr_ne_empty n
  have hshown : shown (.int n) = .ok n.repr := rfl
  rw [Speech.ofParts, parts, List.foldlM_cons, Speech.add_value _ (v := .text c.word) rfl hword]
  simp only [bind, Except.bind, List.foldlM_cons, List.foldlM_append, List.foldlM_nil,
    Speech.add_begin, Speech.foldlM_heard, Speech.add_source, Speech.add_value _ hshown hdigits,
    Speech.add_end]
  simp [Speech.closeEntity, Speech.finish, Speech.note, Speech.hear, Speech.mapInnermost,
    Speech.openEntity, Part.heard, roomAll, speech, entity, pure, Except.pure, bind, Except.bind]

/-- The recognition that a reading of the template means. -/
def recognition (intent : String) (n : Int) (ws : List String) : Recognition where
  intent := intent
  confidence := 1
  entities := [c.entity n ws]
  text := spaced [c.word, n.repr]
  rawText := spaced (c.word :: ws)
  tokens := [.text c.word, .int n]
  rawTokens := c.word :: ws

theorem interpretEmissions_reading (x : Extractor) {n : Int} (hn : Decimal.fitsInt64 n = true)
    {ws : List String} (hws : ∀ w ∈ ws, Ordinary w) (intent : String) :
    interpretEmissions (.builtin x) intent (emissionsOf ((c.reading n ws).marks false)) =
      .ok (c.recognition intent n ws) := by
  have htext : shownAll (c.speech n ws).tokens = .ok (spaced [c.word, n.repr]) := rfl
  rw [c.emissionsOf_reading hws, interpretEmissions, c.convertParts_emissions x hn]
  simp only [bind, Except.bind, c.ofParts_parts, htext]
  rfl

end RangeCommand

/-! ## Recognition -/

namespace RangeCommand

variable (c : RangeCommand) (intent : String)

theorem plain_template : PlainTemplates [(intent, [c.slotSentence])] c.table := fun h hh y hy =>
  (c.ordinary_heads intent h hh y hy).not_control

theorem fixed_template :
    ∀ h ∈ IntentSentences.heads [(intent, [c.slotSentence])] ++ c.table.heads, h.Fixed :=
  fun h hh y hy => (c.ordinary_heads intent h hh y hy).ne_wildcard

theorem filled_template : ∀ p ∈ [(intent, [c.slotSentence])], ∀ s ∈ p.2,
    (s.unfold c.table p.1).Filled := by
  simpa using c.filled_slotSentence intent

theorem mem_readingsOfIntents {q : String × Reading} :
    q ∈ readingsOfIntents c.table [(intent, [c.slotSentence])] ↔
      ∃ n ∈ c.numbers, ∃ ws ∈ Number.forms n, (intent, c.reading n ws) = q := by
  simp only [readingsOfIntents_eq, List.mem_flatMap, List.mem_map]

variable {g : Graph} (hg : Graph.ofSentences [(intent, [c.slotSentence])] c.table = .ok g)
include hg

/-- All forms of the numbers are recognized, in one way. -/
theorem recognize_form (x : Extractor) {n : Int} (hn : n ∈ c.numbers) {ws : List String}
    (hws : ws ∈ Number.forms n) :
    g.recognize ({ tolerant := false } : RecognizerConfig).options (.builtin x) (c.word :: ws) =
      .ok [c.recognition intent n ws] := by
  have hfits := c.fits_of_mem_numbers hn
  have hordinary := Number.ordinary_of_mem_forms hfits hws
  have hheard := c.heard_reading n hordinary
  have hmem := (c.mem_readingsOfIntents intent).mpr ⟨n, hn, ws, hws, rfl⟩
  have hrecognize := recognize_reading (c.plain_template intent) (c.fixed_template intent) rfl hg
    (c.filled_template intent) (c.nodup_heard intent) hmem (hheard ▸ List.cons_ne_nil _ _)
    (c.interpretEmissions_reading x hfits hordinary intent)
  rwa [hheard] at hrecognize

/-- The word is not recognized before anything but a form of a number. -/
theorem recognize_other (cs : Converters) {ws : List String}
    (h : ∀ n ∈ c.numbers, ws ∉ Number.forms n) :
    g.recognize ({ tolerant := false } : RecognizerConfig).options cs (c.word :: ws) =
      .ok [] := by
  refine recognize_eq_nil (c.fixed_template intent) rfl hg (c.filled_template intent)
    (List.cons_ne_nil _ _) (fun q hq hheard => ?_) cs
  obtain ⟨n, hn, ws', hws', rfl⟩ := (c.mem_readingsOfIntents intent).mp hq
  rw [c.heard_reading n (Number.ordinary_of_mem_forms (c.fits_of_mem_numbers hn) hws')] at hheard
  exact h n hn ((List.cons.inj hheard).2 ▸ hws')

end RangeCommand

/-- A template with a range is parsed and trained.  Each number of the range is recognized from
its digits and from its words, in one way: its entity is the number, which comes from the slot
of ranges.  No other number is recognized. -/
theorem recognize_range (c : RangeCommand) (intent : String) (origin : Option Origin)
    (x : Extractor) :
    ∃ s g, Sentence.parse c.text origin = .ok s ∧
      Trainer.new.train ⟨[⟨intent, [.sentence s]⟩]⟩ = .ok g ∧
      (∀ i : Nat, c.lower + i * c.step ≤ c.upper →
        ∀ spoken ∈ [[toString (c.lower + i * c.step)], English.spell (c.lower + i * c.step)],
          ∃ r e, g.recognize ({ tolerant := false } : RecognizerConfig).options (.builtin x)
              (c.word :: spoken) = .ok [r] ∧
            r.intent = intent ∧ r.entities = [e] ∧ e.name = c.tag ∧
            e.value = .int (c.lower + i * c.step) ∧ e.rawValue = " ".intercalate spoken ∧
            e.source = some "mycroft/number") ∧
      ∀ m : Int, (∀ i : Nat, c.lower + i * c.step ≤ c.upper → m ≠ c.lower + i * c.step) →
        g.recognize ({ tolerant := false } : RecognizerConfig).options (.builtin x)
          [c.word, toString m] = .ok [] := by
  obtain ⟨g, hg⟩ := exists_ofSentences_singleton (c.whole_slotSentence intent)
  refine ⟨_, g, c.parse_text origin, ?_, ?_, ?_⟩
  · exact (c.train_corpus intent).trans (congrArg (Except.mapError TrainError.reference) hg)
  · intro i hi spoken hspoken
    have hn := c.mem_numbers.mpr ⟨i, rfl, hi⟩
    exact ⟨_, _, c.recognize_form intent hg x hn hspoken, rfl, rfl, rfl, rfl, rfl, rfl⟩
  · intro m hm
    refine c.recognize_other intent hg _ fun n hn hforms => ?_
    obtain ⟨i, hi, hle⟩ := c.mem_numbers.mp hn
    have hmn : m = n := Number.eq_of_singleton_repr_mem_forms (c.fits_of_mem_numbers hn) hforms
    exact hm i (hi ▸ hle) (hmn.trans hi)

/-- The template `warm (-4..6,5)` with the tag `level`, whose numbers are -4, 1 and 6. -/
def warmCommand : RangeCommand where
  word := "warm"
  lower := -4
  upper := 6
  step := 5
  tag := "level"
  lettered_word := by decide
  lettered_tag := by decide
  fits_lower := by decide
  fits_upper := by decide
  fits_step := by decide
  lower_le := by decide
  step_pos := by decide

/-- Minus four is a number of the range and zero is none. -/
theorem recognize_warmCommand :
    warmCommand.text = "warm (-4..6,5)\x7blevel\x7d" ∧
      ∃ s g, Sentence.parse "warm (-4..6,5)\x7blevel\x7d" = .ok s ∧
        Trainer.new.train ⟨[⟨"Warm", [.sentence s]⟩]⟩ = .ok g ∧
        (∃ r e, g.recognize ({ tolerant := false } : RecognizerConfig).options
            (.builtin (English.extractor (DateTime.ofUnix 0 0))) ["warm", "minus", "four"] =
              .ok [r] ∧
          r.entities = [e] ∧ e.name = "level" ∧ e.value = .int (-4) ∧
          e.rawValue = "minus four") ∧
        g.recognize ({ tolerant := false } : RecognizerConfig).options
          (.builtin (English.extractor (DateTime.ofUnix 0 0))) ["warm", "0"] = .ok [] := by
  have htext : warmCommand.text = "warm (-4..6,5)\x7blevel\x7d" := by decide
  obtain ⟨s, g, hparse, htrain, hin, hout⟩ :=
    recognize_range warmCommand "Warm" none (English.extractor (DateTime.ofUnix 0 0))
  obtain ⟨r, e, hrecognize, -, hentities, hname, hvalue, hraw, -⟩ :=
    hin 0 (by decide) ["minus", "four"] (by decide +kernel)
  have hzero : ∀ i : Nat, warmCommand.lower + i * warmCommand.step ≤ warmCommand.upper →
      (0 : Int) ≠ warmCommand.lower + i * warmCommand.step := fun i _ heq => by
    have hfive : (0 : Int) = -4 + i * 5 := heq
    omega
  exact ⟨htext, s, g, htext ▸ hparse, htrain,
    ⟨r, e, hrecognize, hentities, hname, hvalue, hraw⟩, hout 0 hzero⟩

end Utterance
