import Mathlib.Data.List.Nodup
import Utterance.Proofs.Compile.Heads
import Utterance.Proofs.Template.Plain
import Utterance.Proofs.Wording.Progression
import Utterance.Proofs.Wording.Spelling
import Utterance.Train

/-!
# Number ranges in templates

A `RangeCommand` stands for a template like `warm (18..24,2){level}`: a word, and a range
whose numbers become an entity.  It goes through all stages of training.  It is parsed
(`parse_text`), the range becomes a reference to a slot (`mapWords_rangeAsSlot`), the slot is
filled with the numbers of the range (`fillSlots_slot`), and each number gets its spoken form
(`prepare_corpus`).

Each stage reads what the one before it wrote in decimals, so the first lemmas are about
decimal texts: what is cut off a text as a number, and what is no number.
-/

namespace Utterance

open Template

/-! ## Decimal texts -/

namespace Decimal

/-- The characters of a decimal text. -/
theorem forall_mem_repr {P : Char → Prop} (hminus : P '-') (hdigit : ∀ c, c.isDigit = true → P c)
    (n : Int) : ∀ c ∈ n.repr.toList, P c := by
  rw [toList_repr]
  split
  · exact fun c hc => hdigit c (isDigit_of_mem_digitsOf hc)
  · exact List.forall_mem_cons.mpr ⟨hminus, fun c hc => hdigit c (isDigit_of_mem_digitsOf hc)⟩

theorem isPlain_of_mem_repr (n : Int) : ∀ c ∈ n.repr.toList, isPlain c = true :=
  forall_mem_repr (by decide) (fun _ => isPlain_of_isDigit) n

theorem repr_ne_empty (n : Int) : n.repr ≠ "" := by
  rw [Int.repr_eq_if]
  split
  · exact Nat.repr_ne_empty
  · simp

theorem trim_repr (n : Int) : Text.trim n.repr.toList = n.repr.toList :=
  Text.trim_of_not_blank fun c hc => (isPlain_iff.mp (isPlain_of_mem_repr n c hc)).2.1

theorem trimBlanks_repr (n : Int) : n.repr.trimBlanks = n.repr := by
  rw [String.trimBlanks, trim_repr, String.ofList_toList]

theorem takeWhile_digitsOf {n : Nat} {rest : List Char}
    (hrest : ∀ c ∈ rest.head?, c.isDigit = false) :
    (digitsOf n ++ rest).takeWhile (fun c => (digit? c).isSome) = digitsOf n ∧
      (digitsOf n ++ rest).dropWhile (fun c => (digit? c).isSome) = rest := by
  have hdigits : ∀ c ∈ digitsOf n, (digit? c).isSome = true := fun c hc => by
    rw [isSome_digit?, isDigit_of_mem_digitsOf hc]
  rw [List.takeWhile_append_of_pos hdigits, List.dropWhile_append_of_pos hdigits]
  cases rest with
  | nil => exact ⟨List.append_nil _, rfl⟩
  | cons c rest =>
      have hc : (digit? c).isSome = false := by rw [isSome_digit?, hrest c rfl]
      rw [List.takeWhile_cons, List.dropWhile_cons, hc]
      exact ⟨List.append_nil _, rfl⟩

end Decimal

namespace Number

/-- Digits without a sign are cut off as they are. -/
theorem cutInteger?_digitsOf (n : Nat) {rest : List Char}
    (hrest : ∀ c ∈ rest.head?, c.isDigit = false) :
    cutInteger? (Decimal.digitsOf n ++ rest) = some (Decimal.digitsOf n, rest) := by
  obtain ⟨htake, hdrop⟩ := Decimal.takeWhile_digitsOf (n := n) hrest
  have hne : Decimal.digitsOf n ≠ [] := Nat.toDigits_ne_nil
  cases hdigits : Decimal.digitsOf n with
  | nil => exact absurd hdigits hne
  | cons c cs =>
      have hminus : c ≠ '-' := by
        rintro rfl
        have hdigit := Decimal.isDigit_of_mem_digitsOf (hdigits ▸ List.mem_cons_self (a := '-'))
        cases hdigit
      rw [hdigits, List.cons_append] at htake hdrop
      simp [cutInteger?, hminus, htake, hdrop]

/-- A number is cut off where its digits end. -/
theorem cutInteger?_repr_append (n : Int) (rest : List Char)
    (hrest : ∀ c ∈ rest.head?, c.isDigit = false) :
    cutInteger? (n.repr.toList ++ rest) = some (n.repr.toList, rest) := by
  rw [Decimal.toList_repr]
  split
  next => exact cutInteger?_digitsOf _ hrest
  next =>
    obtain ⟨htake, hdrop⟩ := Decimal.takeWhile_digitsOf (n := (-n).toNat) hrest
    simp [cutInteger?, htake, hdrop]

theorem cutInteger?_repr (n : Int) : cutInteger? n.repr.toList = some (n.repr.toList, []) := by
  simpa using cutInteger?_repr_append n [] (by simp)

/-- Nothing is cut off a text that begins with neither a digit nor a sign. -/
theorem cutInteger?_eq_none {c : Char} {cs : List Char} (hminus : c ≠ '-')
    (hc : c.isDigit = false) : cutInteger? (c :: cs) = none := by
  have hdigit : (Decimal.digit? c).isSome = false := by rw [Decimal.isSome_digit?, hc]
  simp [cutInteger?, hminus, hdigit]

theorem value?_repr {n : Int} (hn : Decimal.fitsInt64 n = true) :
    value? n.repr.toList = some n := by
  rw [value?, Decimal.readInt64_repr hn]

theorem readInteger?_repr {n : Int} (hn : Decimal.fitsInt64 n = true) :
    readInteger? n.repr.toList = some n := by
  simp [readInteger?, cutInteger?_repr, value?_repr hn]

/-- A word of letters is no number, and no range either. -/
theorem cutInteger?_of_lettered {w : String} (hw : Lettered w) : cutInteger? w.toList = none := by
  cases hchars : w.toList with
  | nil => exact absurd (String.toList_eq_nil_iff.mp hchars) hw.ne
  | cons c cs =>
      have hc := hw.letters c (hchars ▸ List.mem_cons_self)
      refine cutInteger?_eq_none (Text.ne_of_isLetter hc (by decide)) ?_
      simpa using (Bool.and_eq_true_iff.mp hc).2

theorem readInteger?_of_lettered {w : String} (hw : Lettered w) : readInteger? w.toList = none := by
  simp [readInteger?, cutInteger?_of_lettered hw]

theorem readRange?_of_lettered {w : String} (hw : Lettered w) : readRange? w.toList = none := by
  simp [readRange?, cutInteger?_of_lettered hw]

end Number

/-! ## The template of a range -/

/-- A word, and then a number of a range, which becomes the value of an entity. -/
structure RangeCommand where
  word : String
  lower : Int
  upper : Int
  step : Int
  tag : String
  lettered_word : Lettered word
  lettered_tag : Lettered tag
  fits_lower : Decimal.fitsInt64 lower = true
  fits_upper : Decimal.fitsInt64 upper = true
  fits_step : Decimal.fitsInt64 step = true
  lower_le : lower ≤ upper
  step_pos : 0 < step

namespace RangeCommand

variable (c : RangeCommand)

/-- The range as it is written, as in `18..24,2`. -/
def rangeText : String := toString c.lower ++ ".." ++ toString c.upper ++ "," ++ toString c.step

/-- The template as it is written, as in `warm (18..24,2){level}`. -/
def text : String := c.word ++ " (" ++ c.rangeText ++ ")\x7b" ++ c.tag ++ "\x7d"

/-- The sentence with an expression in the place of the range. -/
def sentence (e : Expr) : Sentence :=
  ⟨c.text, [.plain c.word, .seq .group c.rangeText [e] {} (some { name := c.tag })]⟩

theorem toList_rangeText : c.rangeText.toList =
    c.lower.repr.toList ++ '.' :: '.' :: (c.upper.repr.toList ++ ',' :: c.step.repr.toList) := by
  simp [rangeText]

theorem isPlain_of_mem_rangeText : ∀ d ∈ c.rangeText.toList, isPlain d = true := by
  have hdot : isPlain '.' = true := by decide
  have hcomma : isPlain ',' = true := by decide
  have hdecimal := fun n => Decimal.isPlain_of_mem_repr n
  rw [toList_rangeText]
  simp only [List.forall_mem_append, List.forall_mem_cons]
  exact ⟨hdecimal _, hdot, hdot, hdecimal _, hcomma, hdecimal _⟩

theorem rangeText_ne_empty : c.rangeText ≠ "" := fun h => by
  have hchars := congrArg String.toList h
  rw [toList_rangeText] at hchars
  simp at hchars

/-- The template is read as a word and, behind it, a group with the range as its only item. -/
theorem parse_text (origin : Option Origin) :
    Sentence.parse c.text origin = .ok (c.sentence (.plain c.rangeText)) := by
  have hword : Takes (origin.bind Origin.intent) c.word.toList (Level.push (.plain c.word)) :=
    .plain c.lettered_word.ne fun d hd => isPlain_of_isLetter (c.lettered_word.letters d hd)
  have hrange : Takes (origin.bind Origin.intent) c.rangeText.toList
      (Level.pushAll [.plain c.rangeText]) :=
    .plain c.rangeText_ne_empty c.isPlain_of_mem_rangeText
  have hgroup := (hrange.sequence (b := .round) (s := {}) (fun pos => sequence_group pos _)
    ⟨by rintro _ ⟨⟩, by rintro _ ⟨⟩⟩).tagged (writable_tag c.lettered_tag)
  rw [sourceText_of_plain c.isPlain_of_mem_rangeText, String.ofList_toList] at hgroup
  have htext : c.text.toList = c.word.toList ++ ' ' :: (Bracket.round.opener :: c.rangeText.toList ++
      Bracket.round.closer :: Suffix.write id id {} ++ Tag.write (fun _ => false) ⟨c.tag, {}⟩) := by
    simp [text, toList_tag, Bracket.opener, Bracket.closer, Suffix.write]
  refine Sentence.parse_of_takes ?_
  rw [htext]
  exact hword.space hgroup

/-! ## From the range to its slot -/

/-- The slot of the numbers of the range. -/
def slot : String := Number.rangeSlot c.lower c.upper c.step

/-- The sentence with the slot in the place of the range. -/
def slotSentence : Sentence :=
  c.sentence (.slot c.rangeText c.slot { converters := [Number.converter] } none)

end RangeCommand

theorem Number.dropStart?_points (cs : List Char) :
    Text.dropStart? ['.', '.'] ('.' :: '.' :: cs) = some cs := by
  simp [Text.dropStart?, List.isPrefixOf]

namespace RangeCommand

variable (c : RangeCommand)

theorem readRange?_rangeText :
    Number.readRange? c.rangeText.toList = some (c.lower, c.upper, c.step) := by
  have hlower := Number.cutInteger?_repr_append c.lower
    ('.' :: '.' :: (c.upper.repr.toList ++ ',' :: c.step.repr.toList)) (by simp)
  have hupper := Number.cutInteger?_repr_append c.upper (',' :: c.step.repr.toList) (by simp)
  -- the step is written without a sign
  have hdigits : ∀ d ∈ c.step.repr.toList, (Decimal.digit? d).isSome = true := by
    rw [Decimal.toList_repr, if_pos (Int.le_of_lt c.step_pos)]
    exact fun d hd => by rw [Decimal.isSome_digit?, Decimal.isDigit_of_mem_digitsOf hd]
  have hnone : ∀ d ∈ c.step.repr.toList, ¬ Decimal.digit? d = none :=
    fun d hd => Option.isSome_iff_ne_none.mp (hdigits d hd)
  rw [toList_rangeText, Number.readRange?]
  simpa [hlower, Number.dropStart?_points, hupper, Number.value?_repr, c.fits_lower, c.fits_upper,
    c.fits_step, Decimal.repr_ne_empty] using hnone

/-- The range becomes a reference to its slot, and the word stays as it is. -/
theorem mapWords_rangeAsSlot :
    (c.sentence (.plain c.rangeText)).mapWords Number.rangeAsSlot = c.slotSentence := by
  simp [sentence, Sentence.mapWords, Expr.mapWordsOf, Expr.mapWords, Expr.plain, Number.rangeAsSlot,
    Suffix.isEmpty, Number.readRange?_of_lettered c.lettered_word, c.readRange?_rangeText,
    slotSentence, slot]

/-! ## The numbers of the range -/

/-- The numbers of the range, ascending. -/
def numbers : List Int :=
  (List.range (((c.upper - c.lower) / c.step).toNat + 1)).map fun (i : Nat) => c.lower + i * c.step

theorem rangeCount_eq : Number.rangeCount c.lower c.upper c.step =
    ((c.upper - c.lower) / c.step).toNat + 1 := if_neg (Int.not_lt.mpr c.lower_le)

theorem mem_numbers {n : Int} :
    n ∈ c.numbers ↔ ∃ i : Nat, n = c.lower + i * c.step ∧ n ≤ c.upper := by
  have hbound (i : Nat) : i < Number.rangeCount c.lower c.upper c.step ↔
      c.lower + i * c.step ≤ c.upper := Number.lt_rangeCount_iff c.step_pos
  rw [rangeCount_eq] at hbound
  rw [numbers, List.mem_map]
  constructor
  · rintro ⟨i, hi, rfl⟩
    exact ⟨i, rfl, (hbound i).mp (List.mem_range.mp hi)⟩
  · rintro ⟨i, rfl, hle⟩
    exact ⟨i, List.mem_range.mpr ((hbound i).mpr hle), rfl⟩

theorem nodup_numbers : c.numbers.Nodup := by
  refine List.Nodup.map (fun i j hij => ?_) List.nodup_range
  have hmul : (i : Int) * c.step = j * c.step := Int.add_left_cancel hij
  exact Int.ofNat.inj (Int.eq_of_mul_eq_mul_right (Int.ne_of_gt c.step_pos) hmul)

theorem fits_of_mem_numbers {n : Int} (hn : n ∈ c.numbers) : Decimal.fitsInt64 n = true := by
  obtain ⟨i, rfl, hle⟩ := c.mem_numbers.mp hn
  have hlower := c.fits_lower
  have hupper := c.fits_upper
  have hnonneg : 0 ≤ (i : Int) * c.step :=
    Int.mul_nonneg (Int.natCast_nonneg i) (Int.le_of_lt c.step_pos)
  simp only [Decimal.fitsInt64, Bool.and_eq_true, decide_eq_true_eq] at hlower hupper ⊢
  omega

theorem numbers_ne_nil : c.numbers ≠ [] :=
  List.ne_nil_of_mem (c.mem_numbers.mpr ⟨0, by simp, c.lower_le⟩)

end RangeCommand

/-! ## The values of the slot -/

theorem Number.splitAt_comma {cs : List Char} (h : ∀ d ∈ cs, (d == ',') = false)
    (rest : List Char) :
    Text.splitAt (· == ',') (cs ++ ',' :: rest) = cs :: Text.splitAt (· == ',') rest := by
  rw [Text.splitAt_append h, Text.splitAt_cons_of_sep (by rfl), List.modifyHead_cons,
    List.append_nil]

namespace RangeCommand

variable (c : RangeCommand)

theorem pieces_slot :
    c.slot.pieces ',' = [Number.slotName, c.lower.repr, c.upper.repr, c.step.repr] := by
  have hdecimal : ∀ n : Int, ∀ d ∈ n.repr.toList, (d == ',') = false := fun n =>
    Decimal.forall_mem_repr (by decide) (fun d hd => beq_false_of_ne (by rintro rfl; cases hd)) n
  have hname : ∀ d ∈ Number.slotName.toList, (d == ',') = false := fun d hd => by
    have hall : Number.slotName.toList.all (· != ',') = true := by decide
    simpa using List.all_eq_true.mp hall d hd
  have hslot : c.slot.toList = Number.slotName.toList ++ ',' :: (c.lower.repr.toList ++ ',' ::
      (c.upper.repr.toList ++ ',' :: c.step.repr.toList)) := by
    simp [slot, Number.rangeSlot]
  rw [String.pieces, hslot, Number.splitAt_comma hname, Number.splitAt_comma (hdecimal _),
    Number.splitAt_comma (hdecimal _), Text.splitAt_of_no_sep (hdecimal _)]
  simp only [List.map_cons, List.map_nil, String.ofList_toList]

theorem slotBase_slot : slotBase c.slot = Number.slotName := by
  rw [slotBase, pieces_slot]
  rfl

/-- The dollar of the key goes to the first piece. -/
theorem pieces_slotKey : (slotKey c.slot).pieces ',' =
    [slotKey Number.slotName, c.lower.repr, c.upper.repr, c.step.repr] := by
  have hpieces := c.pieces_slot
  have hdollar : ∀ d ∈ ['$'], (d == ',') = false := List.forall_mem_singleton.mpr (by decide)
  have hkey : (slotKey c.slot).toList = ['$'] ++ c.slot.toList := by simp [slotKey]
  rw [String.pieces] at hpieces ⊢
  rw [hkey, Text.splitAt_append hdollar]
  cases hsplit : Text.splitAt (· == ',') c.slot.toList with
  | nil => exact absurd hsplit (Text.splitAt_ne_nil _ _)
  | cons first rest =>
      rw [hsplit, List.map_cons] at hpieces
      obtain ⟨hfirst, hrest⟩ := List.cons.inj hpieces
      rw [List.modifyHead_cons, List.map_cons, hrest, slotKey, ← hfirst]
      simp

theorem rangeValues_slotArgs :
    Number.rangeValues (slotArgs (slotKey c.slot)) = .ok (c.numbers.map Int.repr) := by
  have hnumbers : Number.progression c.lower c.upper c.step = c.numbers.map Int.repr := by
    rw [Number.progression, c.rangeCount_eq, numbers, List.map_map]
    rfl
  rw [slotArgs, pieces_slotKey, List.drop_one, List.tail_cons,
    Number.rangeValues_of_writes c.fits_lower c.fits_upper c.fits_step (Decimal.writes_repr _)
      (Decimal.writes_repr _) (Decimal.writes_repr _), if_pos c.step_pos, hnumbers]

end RangeCommand

/-- A trainer fills the slots of ranges. -/
theorem Trainer.generator_number : Trainer.new.generators.get? "$mycroft/number" =
    some fun args => (Number.rangeValues args).mapError Number.RangeError.message := by
  have hslot : SlotGenerators.key Number.slotName = "$mycroft/number" := by decide +kernel
  have hkey : SlotGenerators.key "$mycroft/number" = "$mycroft/number" := by decide +kernel
  simp [Trainer.new, SlotGenerators.get?, SlotGenerators.register, hslot, hkey]

theorem Casing.word_keep (text : String) (suffix : Suffix) (tag : Option Tag) :
    Casing.keep.word text suffix tag = .word text suffix tag := if_pos (beq_self_eq_true text)

namespace Number

/-- A number as a template: a sentence of one word. -/
def decimalExpr (n : Int) : Expr := .seq .group n.repr [.plain n.repr] {} none

theorem parse_repr (n : Int) : Sentence.parse n.repr = .ok ⟨n.repr, [.plain n.repr]⟩ :=
  Sentence.parse_of_takes (.plain (Decimal.repr_ne_empty n) (Decimal.isPlain_of_mem_repr n))

/-- The lines of the slot are read as its numbers. -/
theorem readValues_repr (l : List Int) :
    readValues Casing.keep.sentence (l.map Int.repr) = .ok (l.map decimalExpr) := by
  have hlines : ((l.map Int.repr).map String.trimBlanks).filter (!·.isEmpty) = l.map Int.repr := by
    have htrim : String.trimBlanks ∘ Int.repr = Int.repr := funext Decimal.trimBlanks_repr
    rw [List.map_map, htrim]
    refine List.filter_eq_self.mpr fun line hline => ?_
    obtain ⟨n, -, rfl⟩ := List.mem_map.mp hline
    simpa using Decimal.repr_ne_empty n
  rw [readValues, hlines, List.mapM_map]
  refine (congrArg (List.mapM · l) (funext fun n => ?_)).trans List.mapM_pure
  rw [Function.comp_apply, parse_repr]
  simp only [Except.map, Casing.sentence, Sentence.mapWords, Expr.plain, Expr.mapWordsOf,
    Expr.mapWords, Casing.word_keep, Sentence.toExpr]
  rfl

end Number

namespace RangeCommand

variable (c : RangeCommand)

theorem generateSlot_slot :
    generateSlot Trainer.new.generators Casing.keep.sentence (slotKey c.slot) =
      .ok (c.numbers.map Number.decimalExpr) := by
  have hbase : slotBase (slotKey c.slot) = "$mycroft/number" := by
    rw [slotBase, pieces_slotKey]
    rfl
  have hne : (c.numbers.map Number.decimalExpr).isEmpty = false := by
    simpa using c.numbers_ne_nil
  rw [generateSlot, hbase, Trainer.generator_number]
  simp only [c.rangeValues_slotArgs, Number.readValues_repr, Except.mapError, bind, Except.bind,
    hne]
  rfl

/-- Only the slot of the range is referred to, and its values refer to none. -/
theorem fillSlots_slot (intent : String) :
    fillSlots Trainer.new.generators Casing.keep.sentence [(intent, [c.slotSentence])] [] =
      .ok [(slotKey c.slot, c.numbers.map Number.decimalExpr)] := by
  have hpending : pendingKeys [(intent, [c.slotSentence])] [] = [slotKey c.slot] := by
    simp [pendingKeys, slotSentence, sentence, slotKeysOf, Expr.slotKeys, Expr.nodes, Expr.nodesOf,
      Expr.plain, insertKeys, insertKey]
  have hkeys : slotKeysOf (c.numbers.map Number.decimalExpr) = [] := by
    simp [slotKeysOf, Number.decimalExpr, Expr.slotKeys, Expr.nodes, Expr.nodesOf, Expr.plain]
  rw [fillSlots, hpending]
  change fillPending _ _ (999999 + 1) [] _ = _
  rw [fillPending, c.generateSlot_slot]
  simp only [Table.get?, List.lookup_nil, bind, Except.bind, hkeys]
  rfl

end RangeCommand

/-! ## What is compiled -/

/-- A number as a template that may be heard as its digits or in words. -/
def Number.valueExpr (n : Int) : Expr :=
  .seq .group n.repr
    [.seq .alternative n.repr (.plain n.repr :: spokenExprs n.repr (English.spell n))
      { substitution := some [n.repr], converters := [converter] } none] {} none

theorem Number.mapWords_numberWord {n : Int} (hn : Decimal.fitsInt64 n = true) :
    (decimalExpr n).mapWords Trainer.new.numberWord = valueExpr n := by
  simp [decimalExpr, Expr.mapWords, Expr.mapWordsOf, Expr.plain, Trainer.numberWord, Trainer.new,
    integerOrSpoken, Suffix.isEmpty, readInteger?_repr hn, valueExpr]

namespace RangeCommand

variable (c : RangeCommand)

def table : Table := [(slotKey c.slot, c.numbers.map Number.valueExpr)]

/-- The corpus with the template as its only sentence. -/
def corpus (intent : String) : Corpus :=
  ⟨[⟨intent, [.sentence (c.sentence (.plain c.rangeText))]⟩]⟩

theorem mapWords_keep : c.slotSentence.mapWords Casing.keep.word = c.slotSentence := by
  simp [slotSentence, sentence, Sentence.mapWords, Expr.mapWordsOf, Expr.mapWords, Expr.plain,
    Casing.word_keep]

theorem mapWords_numberWord :
    c.slotSentence.mapWords Trainer.new.numberWord = c.slotSentence := by
  simp [slotSentence, sentence, Sentence.mapWords, Expr.mapWordsOf, Expr.mapWords, Expr.plain,
    Trainer.numberWord, Trainer.new, Number.integerOrSpoken, Suffix.isEmpty,
    Number.readInteger?_of_lettered c.lettered_word]

/-- Each number of the slot gets its spoken form; the word is no number and stays. -/
theorem prepare_corpus (intent : String) :
    Trainer.new.prepare (c.corpus intent) = .ok ([(intent, [c.slotSentence])], c.table) := by
  have hsplit : (c.corpus intent).split =
      ([(intent, [c.sentence (.plain c.rangeText)])], []) := rfl
  have hvalues : (c.numbers.map Number.decimalExpr).map (Expr.mapWords Trainer.new.numberWord) =
      c.numbers.map Number.valueExpr := by
    rw [List.map_map]
    exact List.map_congr_left fun n hn => Number.mapWords_numberWord (c.fits_of_mem_numbers hn)
  have hcasing : Trainer.new.config.casing = .keep := rfl
  unfold Trainer.prepare
  rw [hsplit]
  simp only [hcasing, IntentSentences.mapWords, Table.mapExprs, List.map_cons, List.map_nil,
    mapWords_rangeAsSlot, mapWords_keep, mapWords_numberWord, fillSlots_slot, hvalues, bind,
    Except.bind]
  rfl

/-- Training compiles the sentence with the slot. -/
theorem train_corpus (intent : String) :
    Trainer.new.train (c.corpus intent) =
      (Graph.ofSentences [(intent, [c.slotSentence])] c.table).mapError .reference := by
  rw [Trainer.train, prepare_corpus]
  rfl

end RangeCommand
end Utterance
