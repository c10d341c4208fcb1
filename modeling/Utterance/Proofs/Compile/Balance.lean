import Utterance.Proofs.Compile.Heads
import Utterance.Proofs.Recognition.Labels

/-!
# The marks of a tree are nested

If no word and no substitution looks like a mark, then whatever a tree spells
leaves the stack of open entities and converters as it was
(`compositional_balanced`): the labels before an expression open what the
labels after it close, in reverse order.  Packed names are read back.

A property of marks in a row that is kept where expressions are put together is one
of all that a graph spells (`Compositional.of_mem_languageOfIntents`).
-/

namespace Utterance

open Utterance.Graph

/-! ## Labels of marks -/

/-- The label that a mark's output stands for. -/
def Mark.label? (m : Mark) : Option String := Label.unpack? m.output

/-- The control that a mark says. -/
def Mark.control? (m : Mark) : Option Control := m.label?.bind Control.read?

/-- The label can be packed, is a mark or plain, and starts no intent. -/
structure Label.Sayable (label : String) : Prop where
  not_packed : label.after? Label.packMark = none
  clean : Label.Clean label
  no_intent : Label.intent? label = none

/-- A mark says a label that is a control or plain, and starts no intent. -/
def Mark.Tame (m : Mark) : Prop :=
  ∃ label, m.label? = some label ∧ Label.Clean label ∧ Label.intent? label = none

theorem Label.sayable_of_not_isControl {label : String} (h : Label.isControl label = false) :
    Label.Sayable label where
  not_packed := Label.not_mark_of_not_isControl h
  clean _ := h
  no_intent := by
    cases hintent : Label.intent? label with
    | none => rfl
    | some name =>
        rw [Label.intent?_eq_some.mp hintent, Control.isControl_text] at h
        cases h

/-- No mark looks packed. -/
theorem Control.not_packed (c : Control) : c.text.after? Label.packMark = none := by
  cases c <;> simp [text, Label.packMark, String.after?, Text.dropStart?, List.isPrefixOf]

theorem Control.text_ne_wildcard (c : Control) : c.text ≠ wildcard := fun h => by
  have hc := c.isControl_text
  rw [h] at hc
  exact absurd hc (by decide)

theorem Label.sayable_text {c : Control} (hc : ∀ name, c ≠ .intent name) :
    Label.Sayable c.text where
  not_packed := c.not_packed
  clean := Label.clean_text c
  no_intent := by
    cases hintent : Label.intent? c.text with
    | none => rfl
    | some name =>
        have hread := congrArg Control.read? (Label.intent?_eq_some.mp hintent)
        rw [Control.read?_text, Control.read?_text] at hread
        exact absurd (Option.some.inj hread) (hc name)

theorem Label.sayable_source (slot : String) : Label.Sayable (Control.source slot).text :=
  sayable_text fun _ => Control.noConfusion

theorem Label.Sayable.mark {label : String} (h : Label.Sayable label) (input : String) :
    (⟨input, Label.pack label⟩ : Mark).label? = some label := Label.unpack?_pack h.not_packed

theorem Label.Sayable.tame {label : String} (h : Label.Sayable label) (input : String) :
    (⟨input, Label.pack label⟩ : Mark).Tame :=
  ⟨label, h.mark input, h.clean, h.no_intent⟩

theorem Mark.control?_of_sayable {label : String} (h : Label.Sayable label) (input : String) :
    (⟨input, Label.pack label⟩ : Mark).control? = Control.read? label := by
  rw [control?, h.mark input]
  rfl

theorem Mark.label?_silent : Mark.silent.label? = some "" :=
  Label.unpack?_of_not_packed (Label.not_mark_of_not_isControl (by decide))

theorem Mark.control?_silent : Mark.silent.control? = none := by
  have hread : Control.read? "" = none := by decide
  rw [control?, label?_silent]
  exact hread

theorem Mark.tame_silent : Mark.silent.Tame :=
  ⟨"", label?_silent, fun _ => by decide, by decide⟩

theorem Mark.control?_of_wildcard {m : Mark} (h : m.output = wildcard) : m.control? = none := by
  have hunpack : Label.unpack? wildcard = some wildcard :=
    Label.unpack?_of_not_packed (Label.not_mark_of_not_isControl (by decide))
  have hread : Control.read? wildcard = none := by decide
  rw [control?, label?, h, hunpack]
  exact hread

theorem filterMap_control?_spelled (m : Mark) :
    m.spelled.filterMap Mark.control? = m.control?.toList := by
  rw [Mark.spelled]
  split
  next h => rw [h, Mark.control?_silent]; rfl
  next => rw [filterMap_cons_toList, List.filterMap_nil, List.append_nil]

/-! ## Balanced marks -/

/-- The marks leave any stack as it was, and all of them are tame. -/
structure Balanced (ms : List Mark) : Prop where
  nestAll_eq : ∀ S, nestAll S (ms.filterMap Mark.control?) = some S
  tame : ∀ m ∈ ms, m.Tame

theorem balanced_nil : Balanced [] := ⟨fun _ => rfl, fun _ h => (List.not_mem_nil h).elim⟩

theorem Balanced.append {ms ns : List Mark} (hm : Balanced ms) (hn : Balanced ns) :
    Balanced (ms ++ ns) where
  nestAll_eq S := by
    rw [List.filterMap_append, nestAll_append, hm.nestAll_eq]
    exact hn.nestAll_eq S
  tame m h := (List.mem_append.mp h).elim (hm.tame m) (hn.tame m)

theorem filterMap_control?_saidMarks : ∀ {labels : List String},
    (∀ label ∈ labels, Label.Sayable label) →
      (saidMarks labels).filterMap Mark.control? = labels.filterMap Control.read?
  | [], _ => rfl
  | label :: labels, h => by
      have ih := filterMap_control?_saidMarks fun l hl => h l (List.mem_cons_of_mem _ hl)
      rw [← List.singleton_append, saidMarks_append, List.filterMap_append, List.filterMap_append,
        ih]
      refine congrArg (· ++ _) ?_
      rw [saidMarks, List.flatMap_singleton, filterMap_control?_spelled,
        Mark.control?_of_sayable (h label List.mem_cons_self), filterMap_cons_toList,
        List.filterMap_nil, List.append_nil]

theorem tame_saidMarks {labels : List String} (h : ∀ label ∈ labels, Label.Sayable label) :
    ∀ m ∈ saidMarks labels, m.Tame := by
  intro m hm
  obtain ⟨label, hlabel, hm⟩ := List.mem_flatMap.mp hm
  exact Mark.eq_of_mem_spelled hm ▸ (h label hlabel).tame ""

/-- Plain words and substitutions are said without marks. -/
def Head.Plain (h : Head) : Prop :=
  ∀ x ∈ h.word.toList ++ h.substitutions, Label.isControl x = false

theorem balanced_wordMarks {text : String} (h : Label.isControl text = false) (hidden : Bool) :
    Balanced (wordMarks hidden text) := by
  have hempty : Label.pack "" = "" := by decide
  have hmark : ∃ label, Label.isControl label = false ∧
      wordMarks hidden text = Mark.spelled ⟨text, Label.pack label⟩ := by
    cases hidden with
    | true => exact ⟨"", by decide, by rw [hempty]; rfl⟩
    | false => exact ⟨text, h, rfl⟩
  obtain ⟨label, hlabel, hmark⟩ := hmark
  have hsayable := Label.sayable_of_not_isControl hlabel
  rw [hmark]
  refine ⟨fun S => ?_, fun m hm => ?_⟩
  · rw [filterMap_control?_spelled, Mark.control?_of_sayable hsayable,
      Control.read?_of_not_isControl hlabel]
    rfl
  · exact Mark.eq_of_mem_spelled hm ▸ hsayable.tame text

/-! ## What stands around an expression -/

theorem filterMap_read?_text (l : List Control) :
    (l.map Control.text).filterMap Control.read? = l := by
  rw [List.filterMap_map]
  simp only [Function.comp_def, Control.read?_text, List.filterMap_some]

theorem nestAll_beginConvert (S : List Opened) (keys : List String) :
    nestAll S (keys.map Control.beginConvert) = some ((keys.map Opened.converter).reverse ++ S) := by
  induction keys generalizing S with
  | nil => rfl
  | cons key keys ih =>
      rw [List.map_cons, nestAll_cons]
      change nestAll (.converter key :: S) _ = _
      rw [ih, List.map_cons, List.reverse_cons, List.append_assoc, List.singleton_append]

theorem nestAll_endConvert (S : List Opened) (keys : List String) :
    nestAll (keys.map Opened.converter ++ S) (keys.map Control.endConvert) = some S := by
  induction keys with
  | nil => rfl
  | cons key keys ih =>
      rw [List.map_cons, List.map_cons, nestAll_cons]
      have hnest : Control.nest (.converter key :: (keys.map Opened.converter ++ S))
          (.endConvert key) = some (keys.map Opened.converter ++ S) := if_pos rfl
      rw [List.cons_append, hnest]
      exact ih

/-- The stack inside an expression. -/
def openedBy (suffix : Suffix) (tag : Option Tag) : List Opened :=
  (suffix.converters ++ tagConverters tag).map Opened.converter
    ++ tag.toList.map fun t => .entity t.name

/-- The controls among the labels before an expression. -/
def controlsBefore (suffix : Suffix) (tag : Option Tag) : List Control :=
  (tag.toList.map fun t => .beginEntity t.name)
    ++ ((tagConverters tag).reverse ++ suffix.converters.reverse).map .beginConvert

def controlsAfter (suffix : Suffix) (tag : Option Tag) : List Control :=
  (suffix.converters ++ tagConverters tag).map .endConvert
    ++ tag.toList.map fun t => .endEntity t.name

theorem nestAll_controlsBefore (S : List Opened) (suffix : Suffix) (tag : Option Tag) :
    nestAll S (controlsBefore suffix tag) = some (openedBy suffix tag ++ S) := by
  have hentity : nestAll S (tag.toList.map fun t => .beginEntity t.name)
      = some ((tag.toList.map fun t => .entity t.name) ++ S) := by
    cases tag <;> rfl
  rw [controlsBefore, nestAll_append, hentity]
  change nestAll _ _ = _
  rw [nestAll_beginConvert, ← List.map_reverse, List.reverse_append, List.reverse_reverse,
    List.reverse_reverse, openedBy, List.append_assoc]

theorem nestAll_controlsAfter (S : List Opened) (suffix : Suffix) (tag : Option Tag) :
    nestAll (openedBy suffix tag ++ S) (controlsAfter suffix tag) = some S := by
  rw [controlsAfter, openedBy, List.append_assoc, nestAll_append, nestAll_endConvert]
  cases tag with
  | none => rfl
  | some t =>
      change nestAll (.entity t.name :: S) [.endEntity t.name] = some S
      rw [nestAll_cons]
      exact congrArg (Option.bind · _) (if_pos rfl)

theorem labelsBefore_eq (suffix : Suffix) (tag : Option Tag) :
    labelsBefore suffix tag = (controlsBefore suffix tag).map Control.text := by
  simp only [labelsBefore, controlsBefore, List.map_append, List.map_map, Function.comp_def]

/-- What is said in place of the words inside an expression. -/
def saidInstead (hidden : Bool) (suffix : Suffix) (tag : Option Tag) : List String :=
  ownWords hidden suffix tag ++ (tagSubstitution tag).getD []

theorem labelsAfter_eq (hidden : Bool) (suffix : Suffix) (tag : Option Tag) :
    labelsAfter hidden suffix tag
      = saidInstead hidden suffix tag ++ (controlsAfter suffix tag).map Control.text := by
  simp only [labelsAfter, saidInstead, controlsAfter, List.map_append, List.map_map,
    Function.comp_def, List.append_assoc]

theorem mem_substitutions_of_saidInstead {hidden : Bool} {suffix : Suffix} {tag : Option Tag}
    {w? : Option String} {x : String} (hx : x ∈ saidInstead hidden suffix tag) :
    x ∈ Head.substitutions ⟨w?, suffix, tag⟩ := by
  rcases List.mem_append.mp hx with hx | hx
  · rw [ownWords] at hx
    split at hx
    · exact (List.not_mem_nil hx).elim
    · exact List.mem_append_left _ hx
  · exact List.mem_append_right _ hx

theorem plain_saidInstead {w? : Option String} {suffix : Suffix} {tag : Option Tag}
    (hplain : Head.Plain ⟨w?, suffix, tag⟩) {hidden : Bool} :
    ∀ x ∈ saidInstead hidden suffix tag, Label.isControl x = false := fun x hx =>
  hplain x (List.mem_append_right _ (mem_substitutions_of_saidInstead hx))

theorem sayable_labelsBefore (suffix : Suffix) (tag : Option Tag) :
    ∀ label ∈ labelsBefore suffix tag, Label.Sayable label := by
  rw [labelsBefore_eq]
  intro label hlabel
  obtain ⟨c, hc, rfl⟩ := List.mem_map.mp hlabel
  refine Label.sayable_text fun name hname => ?_
  subst hname
  simp [controlsBefore] at hc

theorem sayable_labelsAfter {w? : Option String} {suffix : Suffix} {tag : Option Tag}
    (hplain : Head.Plain ⟨w?, suffix, tag⟩) {hidden : Bool} :
    ∀ label ∈ labelsAfter hidden suffix tag, Label.Sayable label := by
  rw [labelsAfter_eq]
  intro label hlabel
  rcases List.mem_append.mp hlabel with hlabel | hlabel
  · exact Label.sayable_of_not_isControl (plain_saidInstead hplain label hlabel)
  · obtain ⟨c, hc, rfl⟩ := List.mem_map.mp hlabel
    refine Label.sayable_text fun name hname => ?_
    subst hname
    simp [controlsAfter] at hc

/-- What suffix and tag say around balanced marks is balanced. -/
theorem Balanced.enclose {w? : Option String} {suffix : Suffix} {tag : Option Tag}
    (hplain : Head.Plain ⟨w?, suffix, tag⟩) (hidden : Bool) {ms : List Mark} (hms : Balanced ms) :
    Balanced (Reading.enclose hidden suffix tag ms) := by
  have hbefore := sayable_labelsBefore suffix tag
  have hafter : ∀ label ∈ labelsAfter hidden suffix tag, Label.Sayable label :=
    sayable_labelsAfter hplain
  have hnone : (saidInstead hidden suffix tag).filterMap Control.read? = [] :=
    List.filterMap_eq_nil_iff.mpr fun x hx =>
      Control.read?_of_not_isControl (plain_saidInstead hplain x hx)
  refine ⟨fun S => ?_, fun m hm => ?_⟩
  · rw [Reading.enclose, List.filterMap_append, List.filterMap_append,
      filterMap_control?_saidMarks hbefore, filterMap_control?_saidMarks hafter, labelsBefore_eq,
      labelsAfter_eq, List.filterMap_append, hnone, List.nil_append, filterMap_read?_text,
      filterMap_read?_text, nestAll_append, nestAll_append, nestAll_controlsBefore]
    change (nestAll _ _).bind _ = _
    rw [hms.nestAll_eq]
    exact nestAll_controlsAfter S suffix tag
  · rcases List.mem_append.mp hm with hm | hm
    · rcases List.mem_append.mp hm with hm | hm
      · exact tame_saidMarks hbefore m hm
      · exact hms.tame m hm
    · exact tame_saidMarks hafter m hm

theorem balanced_sourceMarks (name : String) : Balanced (sourceMarks name) := by
  have hsayable := List.forall_mem_singleton.mpr (Label.sayable_source (slotBase name))
  refine ⟨fun S => ?_, tame_saidMarks hsayable⟩
  rw [sourceMarks, filterMap_control?_saidMarks hsayable]
  simp only [filterMap_cons_toList, Control.read?_text]
  rfl

/-! ## Trees -/

/-- A property of marks in a row that is kept where expressions are put together, if their
heads have the property `P`. -/
structure Compositional (P : Head → Prop) (B : List Mark → Prop) : Prop where
  nil : B []
  append : ∀ {l m : List Mark}, B l → B m → B (l ++ m)
  enclose : ∀ {w? : Option String} {suffix : Suffix} {tag : Option Tag}, P ⟨w?, suffix, tag⟩ →
    ∀ (hidden : Bool) {ms : List Mark}, B ms → B (Reading.enclose hidden suffix tag ms)
  word : ∀ {text : String} {suffix : Suffix} {tag : Option Tag}, P ⟨some text, suffix, tag⟩ →
    ∀ hidden, B (wordMarks hidden text)
  source : ∀ name, B (sourceMarks name)

namespace Compositional

variable {P : Head → Prop} {B : List Mark → Prop}

mutual

/-- Whatever a tree spells has the property. -/
theorem of_mem_language (hB : Compositional P B) (expand : Bool) : ∀ (t : Tree) {hidden : Bool}
    {ms : List Mark}, t.All P → ms ∈ t.language expand hidden → B ms
  | .word text suffix tag, hidden, ms, ht, hms => by
      rw [Tree.All] at ht
      rw [Tree.language, mem_wrappedMarks] at hms
      obtain ⟨_, rfl, rfl⟩ := hms
      exact hB.enclose ht hidden (hB.word ht _)
  | .seq .group items suffix tag, hidden, ms, ht, hms => by
      rw [Tree.All] at ht
      rw [Tree.language, mem_wrappedMarks] at hms
      obtain ⟨l, hl, rfl⟩ := hms
      exact hB.enclose ht.1 hidden (of_mem_languageInTurn hB expand items ht.2 hl)
  | .seq .alternative items suffix tag, hidden, ms, ht, hms => by
      rw [Tree.All] at ht
      rw [Tree.language, mem_wrappedMarks] at hms
      obtain ⟨l, hl, rfl⟩ := hms
      exact hB.enclose ht.1 hidden (of_mem_languageOfEach hB expand items ht.2 hl)
  | .rule key [] tag, hidden, ms, ht, hms => by
      rw [Tree.language, mem_wrappedMarks] at hms
      obtain ⟨l, hl, -⟩ := hms
      exact (Language.notMem_zero l hl).elim
  | .rule key (body :: _) tag, hidden, ms, ht, hms => by
      rw [Tree.All, AllOf] at ht
      rw [Tree.language, mem_wrappedMarks] at hms
      obtain ⟨l, hl, rfl⟩ := hms
      exact hB.enclose ht.1 hidden (of_mem_language hB expand body ht.2.1 hl)
  | .slot name values suffix tag, hidden, ms, ht, hms => by
      rw [Tree.All] at ht
      rw [Tree.language, mem_wrappedMarks] at hms
      obtain ⟨_, hmul, rfl⟩ := hms
      obtain ⟨l, hl, _, rfl, rfl⟩ := Language.mem_mul.mp hmul
      refine hB.enclose ht.1 hidden (hB.append ?_ (hB.source name))
      cases expand with
      | false =>
          rw [if_neg Bool.false_ne_true, Language.mem_one] at hl
          exact hl ▸ hB.nil
      | true => exact of_mem_languageOfEach hB true values ht.2 hl
  | .broken e, hidden, ms, _, hms => by
      rw [Tree.language] at hms
      exact (Language.notMem_zero ms hms).elim

theorem of_mem_languageInTurn (hB : Compositional P B) (expand : Bool) : ∀ (ts : List Tree)
    {hidden : Bool} {ms : List Mark}, AllOf P ts → ms ∈ languageInTurn expand hidden ts → B ms
  | [], _, ms, _, hms => by
      rw [languageInTurn, Language.mem_one] at hms
      exact hms ▸ hB.nil
  | t :: ts, hidden, ms, hts, hms => by
      rw [languageInTurn, Language.mem_mul] at hms
      obtain ⟨l, hl, m, hm, rfl⟩ := hms
      exact hB.append (of_mem_language hB expand t hts.1 hl)
        (of_mem_languageInTurn hB expand ts hts.2 hm)

theorem of_mem_languageOfEach (hB : Compositional P B) (expand : Bool) : ∀ (ts : List Tree)
    {hidden : Bool} {ms : List Mark}, AllOf P ts → ms ∈ languageOfEach expand hidden ts → B ms
  | [], _, ms, _, hms => (Language.notMem_zero ms hms).elim
  | t :: ts, hidden, ms, hts, hms => by
      rw [languageOfEach, Language.mem_add] at hms
      rcases hms with hms | hms
      · exact of_mem_language hB expand t hts.1 hms
      · exact of_mem_languageOfEach hB expand ts hts.2 hms

end

/-- What the sentences of an intent spell has the property after the intent's label. -/
theorem of_mem_languageOfIntents (hB : Compositional P B) {l : IntentSentences} {t : Table}
    {expand : Bool} (hP : ∀ h ∈ l.heads ++ t.heads, P h) {ms : List Mark}
    (hms : ms ∈ languageOfIntents t expand l) :
    ∃ intent rest, ms = intentMark intent :: rest ∧ B rest := by
  obtain ⟨intent, sentences, hmem, hms⟩ := mem_languageOfIntents.mp hms
  obtain ⟨_, rfl, rest, hrest, rfl⟩ := Language.mem_mul.mp hms
  obtain ⟨_, htree, hrest⟩ := mem_languageOfEach.mp hrest
  obtain ⟨s, hs, rfl⟩ := List.mem_map.mp htree
  refine ⟨intent, rest, rfl, hB.of_mem_language expand _ ?_ hrest⟩
  exact all_unfold (fun h hh => hP h (List.mem_append_right _ hh)) _ _ fun h hh =>
    hP h (List.mem_append_left _ (IntentSentences.mem_heads hmem hs hh))

end Compositional

/-- Whatever plain expressions spell is balanced. -/
theorem compositional_balanced : Compositional Head.Plain Balanced where
  nil := balanced_nil
  append := .append
  enclose := .enclose
  word h := balanced_wordMarks (h _ (List.mem_append_left _ (by simp)))
  source := balanced_sourceMarks

end Utterance
