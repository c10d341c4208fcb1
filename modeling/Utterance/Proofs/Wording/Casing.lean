import Utterance.Proofs.Compile.Rewriting
import Utterance.Proofs.Text.Case
import Utterance.Proofs.Wording.Forms

/-!
# The case of what a graph hears

Words come into a graph from sentences, from rules and from the values of slots, and they
pass through several functions on the way.  Each function that replaces words is described
by what it makes of one word (`hears_mapWords`), and this carries over to all sentences,
to a table, and through filling to the table that results (`hears_fillSlots`).

After casing every word is in the case that was asked for.  Numbers get their spoken forms
only then.  The words of the English speller are small letters, so lower case is kept, but
in upper case these words are the ones that are not (`input_of_trainWithin`).
-/

namespace Utterance

/-! ## Replacing words -/

section

variable {P Q : String → Prop} {f : String → Suffix → Option Tag → Expr}

theorem hears_node (suffix : Suffix) (tag : Option Tag) :
    Head.Hears P ⟨none, suffix, tag⟩ := by
  rintro _ ⟨⟩

section

variable (hf : ∀ text suffix tag, Q text → ∀ h ∈ (f text suffix tag).heads, h.Hears P)
include hf

/-- If a function makes words with one property of words with another, so it does in a whole
tree, in all sentences and in a table. -/
theorem hears_mapWords (e : Expr) (he : ∀ h ∈ e.heads, h.Hears Q) :
    ∀ h ∈ (e.mapWords f).heads, h.Hears P :=
  forall_heads_mapWords (fun suffix tag _ => hears_node suffix tag)
    (fun text suffix tag h => hf text suffix tag (h text rfl)) e he

theorem IntentSentences.hears_mapWords {l : IntentSentences} (hl : ∀ h ∈ l.heads, h.Hears Q) :
    ∀ h ∈ (l.mapWords f).heads, h.Hears P :=
  forall_heads_mapWords (fun suffix tag _ => hears_node suffix tag)
    (fun text suffix tag h => hf text suffix tag (h text rfl)) hl

theorem Table.hears_mapWords {t : Table} (ht : ∀ h ∈ t.heads, h.Hears Q) :
    ∀ h ∈ (t.mapExprs (Expr.mapWords f)).heads, h.Hears P :=
  forall_heads_mapWords (fun suffix tag _ => hears_node suffix tag)
    (fun text suffix tag h => hf text suffix tag (h text rfl)) ht

end

/-- What the table and all visited sentences hear has a property that what the filled table
hears has, too. -/
theorem hears_fillSlots {g : SlotGenerators} {visit : Sentence → Sentence} {l : IntentSentences}
    {t t' : Table} {bound : Nat} (hvisit : ∀ s, ∀ h ∈ (visit s).toExpr.heads, h.Hears P)
    (ht : ∀ h ∈ t.heads, h.Hears P) (hfill : fillSlots g visit l t bound = .ok t') :
    ∀ h ∈ t'.heads, h.Hears P := by
  obtain ⟨added, consumed, -, hrun⟩ := fillPending_spec hfill
  intro h hh
  rw [hrun.grown, Table.heads, List.flatMap_append, List.mem_append] at hh
  rcases hh with hh | hh
  · exact ht h hh
  · obtain ⟨entry, hentry, hh⟩ := List.mem_flatMap.mp hh
    obtain ⟨e, he, hh⟩ := List.mem_flatMap.mp hh
    obtain ⟨f, lines, sentences, -, -, -, hvalues⟩ :=
      (generateSlot_eq_ok.mp (hrun.generated entry hentry)).1
    rw [hvalues] at he
    obtain ⟨s, -, rfl⟩ := List.mem_map.mp he
    exact hvisit s h hh

end

/-! ## Casing -/

namespace Casing

theorem apply_apply (c : Casing) (s : String) : c.apply (c.apply s) = c.apply s := by
  cases c with
  | keep => rfl
  | lower => exact s.lowerCase_lowerCase
  | upper => exact s.upperCase_upperCase

/-- A text that the casing does not change. -/
def Keeps (c : Casing) (text : String) : Prop := c.apply text = text

theorem keeps_empty (c : Casing) : c.Keeps "" := by
  cases c <;> rfl

/-- A cased word is in that case. -/
theorem hears_word (c : Casing) (text : String) (suffix : Suffix) (tag : Option Tag) :
    ∀ h ∈ (c.word text suffix tag).heads, h.Hears c.Keeps := by
  intro h hh
  rw [word] at hh
  split at hh
  next heq =>
    obtain rfl := List.mem_singleton.mp hh
    rintro _ ⟨⟩
    exact eq_of_beq heq
  next =>
    obtain rfl := List.mem_singleton.mp hh
    rintro _ ⟨⟩
    exact c.apply_apply text

theorem hears_expr (c : Casing) (e : Expr) : ∀ h ∈ (c.expr e).heads, h.Hears c.Keeps :=
  hears_mapWords (Q := fun _ => True) (fun text suffix tag _ => c.hears_word text suffix tag) e
    fun _ _ _ _ => trivial

end Casing

/-! ## Spoken numbers -/

theorem Decimal.fits_of_readDigits {low high : Int} {negative : Bool} {n m : Int} {cs : List Char}
    (hn : low ≤ n ∧ n ≤ high) (h : readDigits low high negative n cs = .ok m) :
    low ≤ m ∧ m ≤ high := by
  induction cs generalizing n with
  | nil =>
      rw [readDigits] at h
      cases h
      exact hn
  | cons c cs ih =>
      rw [readDigits] at h
      split at h
      next => cases h
      next d _ =>
        generalize (if negative then n * 10 - (d : Int) else n * 10 + d) = next at h
        simp only at h
        split at h
        next => cases h
        next hlow =>
          split at h
          next => cases h
          next hhigh => exact ih ⟨not_lt.mp hlow, not_lt.mp hhigh⟩ h

theorem Decimal.fits_of_readInt64 {cs : List Char} {n : Int} (h : readInt64 cs = .ok n) :
    fitsInt64 n = true := by
  have hzero : minInt64 ≤ 0 ∧ 0 ≤ maxInt64 := by decide
  have hfits : minInt64 ≤ n ∧ n ≤ maxInt64 := by
    unfold readInt64 readInt at h
    split at h
    · cases h
    · cases h
    · cases h
    · exact fits_of_readDigits hzero h
    · exact fits_of_readDigits hzero h
    · exact fits_of_readDigits hzero h
  simpa [fitsInt64] using hfits

namespace Number

theorem fits_of_readInteger? {cs : List Char} {n : Int} (h : readInteger? cs = some n) :
    Decimal.fitsInt64 n = true := by
  unfold readInteger? at h
  obtain ⟨cut, -, h⟩ := Option.bind_eq_some_iff.mp h
  split at h
  · unfold value? at h
    split at h
    next hread =>
      cases h
      exact Decimal.fits_of_readInt64 hread
    next => cases h
  · cases h

/-- The spoken form of a number hears words of the speller only. -/
theorem hears_spokenExprs (text : String) (ws : List String) :
    ∀ e ∈ spokenExprs text ws, ∀ h ∈ e.heads, h.Hears (· ∈ ws) := by
  have hplain : ∀ w ∈ ws, ∀ h ∈ (Expr.plain w).heads, h.Hears (· ∈ ws) := by
    intro w hw h hh
    obtain rfl := List.mem_singleton.mp hh
    rintro _ ⟨⟩
    exact hw
  intro e he h hh
  unfold spokenExprs at he
  split at he
  · cases he
  · split at he
    · cases he
    · obtain rfl := List.mem_singleton.mp he
      exact hplain _ List.mem_cons_self h hh
  · obtain rfl := List.mem_singleton.mp he
    rcases Expr.mem_heads_seq.mp hh with rfl | ⟨e, hmem, hh⟩
    · rintro _ ⟨⟩
    · obtain ⟨w, hw, rfl⟩ := List.mem_map.mp hmem
      exact hplain w hw h hh

end Number

/-- The word is one of a number's, as the speller says it. -/
def Speller.Speaks (speller : Speller) (word : String) : Prop :=
  ∃ n, Decimal.fitsInt64 n = true ∧ word ∈ speller n

/-- A number may be heard as it is written or in words of the speller. -/
theorem Trainer.hears_numberWord (tr : Trainer) {Q : String → Prop} (text : String)
    (suffix : Suffix) (tag : Option Tag) (htext : Q text) :
    ∀ h ∈ (tr.numberWord text suffix tag).heads,
      h.Hears fun word => Q word ∨ tr.config.replaceNumbers = true ∧ tr.speller.Speaks word := by
  have hword : ∀ {suffix tag}, ∀ h ∈ (Expr.word text suffix tag).heads,
      h.Hears fun word => Q word ∨ tr.config.replaceNumbers = true ∧ tr.speller.Speaks word := by
    intro suffix tag h hh
    obtain rfl := List.mem_singleton.mp hh
    rintro _ ⟨⟩
    exact .inl htext
  unfold numberWord
  split
  next hreplace =>
    unfold Number.integerOrSpoken
    split
    next n hn =>
      have hfits : Decimal.fitsInt64 n = true := by
        split at hn
        · exact Number.fits_of_readInteger? hn
        · cases hn
      intro h hh
      rcases Expr.mem_heads_seq.mp hh with rfl | ⟨e, hmem, hh⟩
      · rintro _ ⟨⟩
      · rcases List.mem_cons.mp hmem with rfl | hmem
        · exact hword h hh
        · intro word hw
          have hspoken := Number.hears_spokenExprs text (tr.speller n) e hmem h hh word hw
          exact .inr ⟨hreplace, n, hfits, hspoken⟩
    next => exact hword
  next => exact hword

namespace English

/-- The letters of English words, which are small letters and no capital ones. -/
def letters : List Char := "abcdefghijklmnopqrstuvwxyz".toList

theorem case_of_mem_letters {c : Char} (hc : c ∈ letters) :
    (c ≠ 'Σ' ∧ Text.lowerChar c = [c]) ∧ Text.upperChar c ≠ [c] := by
  have hall : letters.all fun c =>
      (c ≠ 'Σ' ∧ Text.lowerChar c = [c]) ∧ Text.upperChar c ≠ [c] := by decide +kernel
  exact of_decide_eq_true (List.all_eq_true.mp hall c hc)

theorem mem_letters_of_mem_vocabulary {entry : String × Role} (h : entry ∈ vocabulary) :
    entry.1 ≠ "" ∧ ∀ c ∈ entry.1.toList, c ∈ letters := by
  have hall : vocabulary.all fun entry =>
      entry.1 ≠ "" ∧ entry.1.toList.all letters.contains := by decide +kernel
  obtain ⟨hne, hletters⟩ := of_decide_eq_true (List.all_eq_true.mp hall entry h)
  exact ⟨hne, fun c hc => List.contains_iff_mem.mp (List.all_eq_true.mp hletters c hc)⟩

/-- The words of numbers are in lower case, and none of them is in upper case. -/
theorem case_of_speaks {word : String} (h : Speller.Speaks spell word) :
    word.lowerCase = word ∧ word.upperCase ≠ word := by
  obtain ⟨n, hn, hword⟩ := h
  obtain ⟨r, hr⟩ := exists_role_of_mem_spell (Number.natAbs_lt hn) word hword
  obtain ⟨before, after, hsplit, -⟩ := List.lookup_eq_some_iff.mp hr
  have hmem : (word, r) ∈ vocabulary := by
    rw [hsplit]
    exact List.mem_append_right _ List.mem_cons_self
  obtain ⟨hne, hletters⟩ := mem_letters_of_mem_vocabulary hmem
  constructor
  · rw [String.lowerCase, Text.lower, Text.lowerAfter_of_isLower fun c hc =>
      (case_of_mem_letters (hletters c hc)).1, String.ofList_toList]
  · intro hupper
    have hchars : Text.upper word.toList = word.toList := by
      rw [← congrArg String.toList hupper, String.upperCase, String.toList_ofList, Text.upper_upper]
    have hnone : word.toList = [] := by
      refine List.eq_nil_iff_forall_not_mem.mpr fun c hc => ?_
      have hkept : Text.IsUpper c := Text.isUpper_of_mem_upper c (by rwa [hchars])
      exact (case_of_mem_letters (hletters c hc)).2 hkept
    exact hne (String.toList_eq_nil_iff.mp hnone)

end English

/-! ## Training -/

namespace Trainer

variable {tr : Trainer} {corpus : Corpus}

/-- Whatever is written in the sentences and rules of a corpus is cased. -/
theorem hears_cased (tr : Trainer) (corpus : Corpus) :
    ∀ h ∈ (tr.cased corpus).1.heads ++ (tr.cased corpus).2.heads,
      h.Hears tr.config.casing.Keeps := by
  intro h hh
  rcases List.mem_append.mp hh with hh | hh
  · exact IntentSentences.hears_mapWords (Q := fun _ => True)
      (fun text suffix tag _ => tr.config.casing.hears_word text suffix tag)
      (fun _ _ _ _ => trivial) h hh
  · exact Table.hears_mapWords (Q := fun _ => True)
      (fun text suffix tag _ => tr.config.casing.hears_word text suffix tag)
      (fun _ _ _ _ => trivial) h hh

/-- What a trained graph hears is cased, or else it is a word that the speller says. -/
theorem inputs_trainWithin {bound : Nat} {g : Graph} (hg : tr.trainWithin bound corpus = .ok g) :
    g.Inputs fun word => tr.config.casing.Keeps word ∨
      tr.config.replaceNumbers = true ∧ tr.speller.Speaks word := by
  obtain ⟨t, hfill, hcompile⟩ := trainWithin_eq_ok.mp hg
  have hcased := tr.hears_cased corpus
  rw [List.forall_mem_append] at hcased
  have hvisit : ∀ s : Sentence, ∀ h ∈ (tr.config.casing.sentence s).toExpr.heads,
      h.Hears tr.config.casing.Keeps := fun s => tr.config.casing.hears_expr s.toExpr
  have htable := hears_fillSlots hvisit hcased.2 hfill
  have hnumber := fun text suffix tag =>
    tr.hears_numberWord (Q := tr.config.casing.Keeps) text suffix tag
  exact inputs_ofSentences (.inl tr.config.casing.keeps_empty) (List.forall_mem_append.mpr
    ⟨IntentSentences.hears_mapWords hnumber hcased.1,
      Table.hears_mapWords hnumber htable⟩) hcompile

end Trainer

/-- Every label of a trained graph is in the case that was asked for, except that in upper case
the words of spoken numbers are not.  `Trainer.train` trains within `slotBound`. -/
theorem input_of_trainWithin {tr : Trainer} {corpus : Corpus} {bound : Nat} {g : Graph}
    (hspeller : tr.speller = English.spell) (hg : tr.trainWithin bound corpus = .ok g) :
    ∀ e ∈ g.edges, tr.config.casing.apply e.input ≠ e.input ↔
      tr.config.casing = .upper ∧ tr.config.replaceNumbers = true ∧
        ∃ n, Decimal.fitsInt64 n = true ∧ e.input ∈ English.spell n := by
  intro e he
  have hinput := Trainer.inputs_trainWithin hg e he
  rw [hspeller] at hinput
  constructor
  · intro hne
    obtain ⟨hreplace, hspeaks⟩ := hinput.resolve_left hne
    refine ⟨?_, hreplace, hspeaks⟩
    cases hcasing : tr.config.casing with
    | upper => rfl
    | keep =>
        rw [hcasing] at hne
        exact (hne rfl).elim
    | lower =>
        rw [hcasing] at hne
        exact (hne (English.case_of_speaks hspeaks).1).elim
  · rintro ⟨hcasing, -, hspeaks⟩
    rw [hcasing]
    exact (English.case_of_speaks hspeaks).2

/-- The only sentence is the number `5`. -/
def fiveCorpus : Corpus := ⟨[⟨"Set", [.sentence ⟨"5", [.plain "5"]⟩]⟩]⟩

def fiveGraph : Graph where
  nodes := #[⟨none, #[0]⟩, ⟨none, #[1]⟩, ⟨none, #[2, 3]⟩, ⟨some "5", #[4]⟩, ⟨some "five", #[5]⟩,
    ⟨none, #[6]⟩, ⟨none, #[7]⟩, ⟨none, #[8]⟩, ⟨none, #[]⟩]
  edges := #[{ source := 0, target := 1, output := "__label__Set" },
    { source := 1, target := 2, output := "__convert__int" },
    { source := 2, target := 3, input := "5" },
    { source := 2, target := 4, input := "five" },
    { source := 3, target := 5 },
    { source := 4, target := 5 },
    { source := 5, target := 6, output := "5" },
    { source := 6, target := 7, output := "__converted__int" },
    { source := 7, target := 8 }]
  start := some 0
  final := some 8

theorem train_fiveCorpus {casing : Casing} (hfive : casing.apply "5" = "5") :
    (Trainer.new { casing }).train fiveCorpus = .ok fiveGraph := by
  have hrange : Number.rangeAsSlot "5" {} none = .word "5" {} none := rfl
  have hword : casing.word "5" {} none = .word "5" {} none := by
    rw [Casing.word, hfive]
    rfl
  have hcased : (Trainer.new { casing }).cased fiveCorpus =
      ([("Set", [⟨"5", [.word "5" {} none]⟩])], []) := by
    simp [Trainer.cased, fiveCorpus, Corpus.split, IntentSection.sentences, IntentSection.addRules,
      IntentSentences.mapWords, Sentence.mapWords, Expr.plain, Expr.mapWords, Expr.mapWordsOf,
      hrange, Trainer.new, hword, Table.mapExprs]
  have hnumber : (Trainer.new { casing }).numberWord "5" {} none =
      .seq .alternative "5" [.word "5" {} none, .word "five" {} none]
        { substitution := some ["5"], converters := ["int"] } none := by
    have hread : Number.readInteger? ['5'] = some 5 := by decide
    have hspell : English.spell 5 = ["five"] := by decide +kernel
    have hdigits : (5 : Int).repr = "5" := by decide
    simp [Trainer.numberWord, Trainer.new, Number.integerOrSpoken, Suffix.isEmpty, hread, hspell,
      hdigits, Number.spokenExprs, Expr.plain, Number.converter]
  have hspoken : IntentSentences.mapWords (Trainer.new { casing }).numberWord
      [("Set", [⟨"5", [.word "5" {} none]⟩])] = [("Set", [⟨"5", [.seq .alternative "5"
        [.word "5" {} none, .word "five" {} none]
        { substitution := some ["5"], converters := ["int"] } none]⟩])] := by
    simp [IntentSentences.mapWords, Sentence.mapWords, Expr.mapWords, Expr.mapWordsOf, hnumber]
  rw [Trainer.train_eq_trainWithin, Trainer.trainWithin_eq_ok, hcased, hspoken]
  refine ⟨[], rfl, ?_⟩
  have hunfold : Sentence.unfold [] "Set" ⟨"5", [.seq .alternative "5"
      [.word "5" {} none, .word "five" {} none]
      { substitution := some ["5"], converters := ["int"] } none]⟩ =
      .seq .group [.seq .alternative [.word "5" {} none, .word "five" {} none]
        { substitution := some ["5"], converters := ["int"] } none] {} none := by
    simp [Sentence.unfold, Sentence.toExpr, unfold, unfoldAll]
  exact (ofSentences_singleton hunfold).trans rfl

/-- In lower case all labels are in the case that was asked for. -/
theorem input_fiveGraph :
    (Trainer.new { casing := .lower }).train fiveCorpus = .ok fiveGraph ∧
      ∀ e ∈ fiveGraph.edges, e.input.lowerCase = e.input := by
  have htrain : (Trainer.new { casing := .lower }).train fiveCorpus = .ok fiveGraph :=
    train_fiveCorpus (by decide)
  refine ⟨htrain, fun e he => ?_⟩
  rw [Trainer.train_eq_trainWithin] at htrain
  by_contra hne
  obtain ⟨hupper, -⟩ := (input_of_trainWithin rfl htrain e he).mp hne
  cases hupper

/-- In upper case the word for a number is not. -/
theorem five_not_upper_fiveGraph :
    (Trainer.new { casing := .upper }).speller = English.spell ∧
      (Trainer.new { casing := .upper }).train fiveCorpus = .ok fiveGraph ∧
      ∃ e ∈ fiveGraph.edges, e.input = "five" ∧ e.input.upperCase = "FIVE" :=
  ⟨rfl, train_fiveCorpus (by decide),
    { source := 2, target := 4, input := "five" }, by simp [fiveGraph], rfl, by decide⟩

end Utterance
