import Utterance.Proofs.Compile.Enumeration
import Utterance.Proofs.Wording.Forms

/-!
# Readings of number ranges

The template of a `RangeCommand` has one reading for each form of each number
(`readingsOfIntents_eq`).  As no two numbers have a form in common, no two of its readings are
heard alike (`nodup_heard`).  All that is written in the template and in the values of its slot
is ordinary (`ordinary_heads`).
-/

namespace Utterance

/-! ## Trees and readings of numbers -/

/-- Words in turn; a single word is no group. -/
def Tree.ofWords : List String → Tree
  | [w] => .word w {} none
  | ws => .seq .group (ws.map fun w => .word w {} none) {} none

def Reading.ofWords : List String → Reading
  | [w] => .word w {} none
  | ws => .node none (ws.map fun w => .word w {} none) {} none

namespace Tree

theorem readingsInTurn_words (ws : List String) :
    readingsInTurn (ws.map fun w => .word w {} none) = [ws.map fun w => .word w {} none] := by
  induction ws with
  | nil => rfl
  | cons w ws ih =>
      rw [List.map_cons, readingsInTurn, ih]
      rfl

theorem readings_ofWords : ∀ ws : List String, (ofWords ws).readings = [.ofWords ws]
  | [_] => rfl
  | [] => rfl
  | w :: w' :: ws => by
      rw [ofWords, Tree.readings, readingsInTurn_words]
      · rfl
      · simp

theorem filled_ofWords : ∀ {ws : List String}, ws ≠ [] → (ofWords ws).Filled
  | [_], _ => trivial
  | w :: w' :: ws, _ => by
      rw [ofWords, Filled, allFilled_iff_forall, List.forall_mem_map]
      · exact ⟨by simp, fun _ _ => trivial⟩
      · simp

theorem whole_ofWords : ∀ ws : List String, (ofWords ws).Whole
  | [_] => trivial
  | [] => trivial
  | w :: w' :: ws => by
      rw [ofWords, Whole, allWhole_iff_forall, List.forall_mem_map]
      · exact fun _ _ => trivial
      · simp

end Tree

theorem unfold_plain (t : Table) (c : Scope) (w : String) :
    unfold t c (.plain w) = .word w {} none := by
  rw [Expr.plain, unfold]

namespace Number

variable {n : Int}

/-- The words of a number make one more branch. -/
theorem unfoldAll_spokenExprs (t : Table) (c : Scope) {text : String} :
    ∀ {ws : List String}, ws ≠ [] → [text] ≠ ws →
      unfoldAll t c (spokenExprs text ws) = [.ofWords ws]
  | [w], _, htext => by
      have hne : (w == text) = false := beq_false_of_ne fun h => htext (h ▸ rfl)
      simp [spokenExprs, hne, unfoldAll, unfold_plain, Tree.ofWords]
  | w :: w' :: ws, _, _ => by
      have hgroup : spokenExprs text (w :: w' :: ws) =
        [.seq .group (" ".intercalate (w :: w' :: ws)) ((w :: w' :: ws).map Expr.plain) {} none] :=
          rfl
      have hunfold : unfoldAll t c ((w :: w' :: ws).map Expr.plain) =
          (w :: w' :: ws).map fun w => .word w {} none := by
        rw [unfoldAll_eq_map, List.map_map]
        exact List.map_congr_left fun w _ => unfold_plain t c w
      rw [hgroup, unfoldAll, unfoldAll, unfold, hunfold]
      rfl

/-- A number as a tree, with its digits and its words as branches. -/
def tree (n : Int) : Tree :=
  .seq .group
    [.seq .alternative [.word n.repr {} none, .ofWords (English.spell n)]
      { substitution := some [n.repr], converters := [converter] } none] {} none

/-- A number is heard as these words and said as its digits. -/
def reading (n : Int) (ws : List String) : Reading :=
  .node none [.node none [.ofWords ws]
    { substitution := some [n.repr], converters := [converter] } none] {} none

theorem unfold_valueExpr (t : Table) (c : Scope) (hn : Decimal.fitsInt64 n = true) :
    unfold t c (valueExpr n) = tree n := by
  have hspoken := unfoldAll_spokenExprs t c (English.spell_ne_nil (natAbs_lt hn))
    (singleton_repr_ne_spell hn n)
  simp [valueExpr, unfold, unfoldAll, unfold_plain, hspoken, tree]

theorem readings_tree (n : Int) : (tree n).readings = (forms n).map (reading n) := by
  simp [tree, Tree.readings, readingsInTurn, readingsOfEach, Tree.readings_ofWords, forms, reading,
    Reading.ofWords]

theorem filled_tree (hn : Decimal.fitsInt64 n = true) : (tree n).Filled := by
  simp [tree, Tree.Filled, AllFilled, Tree.filled_ofWords (English.spell_ne_nil (natAbs_lt hn))]

theorem whole_tree (n : Int) : (tree n).Whole := by
  simp [tree, Tree.Whole, AllWhole, Tree.whole_ofWords]

end Number

namespace Tree

theorem readings_group_singleton (e : Tree) (suffix : Suffix) (tag : Option Tag) :
    (Tree.seq .group [e] suffix tag).readings =
      e.readings.map fun r => .node none [r] suffix tag := by
  rw [readings, readingsInTurn, readingsInTurn, List.map_flatMap, List.map_eq_flatMap]
  rfl

theorem readings_word_group (w : String) (e : Tree) (suffix : Suffix) (tag : Option Tag) :
    (Tree.seq .group [.word w {} none, e] suffix tag).readings =
      e.readings.map fun r => .node none [.word w {} none, r] suffix tag := by
  simp only [readings, readingsInTurn, List.flatMap_singleton, List.map_singleton,
    ← List.map_eq_flatMap, List.map_map]
  rfl

end Tree

namespace RangeCommand

variable (c : RangeCommand)

/-- The template is heard with these words for a number of its range. -/
def reading (n : Int) (ws : List String) : Reading :=
  .node none [.word c.word {} none,
    .node none [.node (some c.slot) [Number.reading n ws] { converters := [Number.converter] } none]
      {} (some { name := c.tag })] {} none

theorem unfold_slotSentence (intent : String) :
    c.slotSentence.unfold c.table intent =
      .seq .group [.word c.word {} none,
        .seq .group [.slot c.slot (c.numbers.map Number.tree)
          { converters := [Number.converter] } none] {} (some { name := c.tag })] {} none := by
  have hslot : c.table.get? (slotKey c.slot) = some (c.numbers.map Number.valueExpr) := by
    rw [table, Table.get?, List.lookup_cons, beq_self_eq_true]
  have hvalues : ∀ s : Scope, (c.numbers.map Number.valueExpr).map (unfold c.table s) =
      c.numbers.map Number.tree := fun s => by
    rw [List.map_map]
    exact List.map_congr_left fun n hn => Number.unfold_valueExpr _ s (c.fits_of_mem_numbers hn)
  simp only [Sentence.unfold, Sentence.toExpr, slotSentence, sentence, unfold,
    unfold_slot_of_get? hslot, unfold_plain, unfoldAll_eq_map, hvalues, List.map_cons, List.map_nil]
  rfl

/-- The template has a reading for each form of each number. -/
theorem readingsOfIntents_eq (intent : String) :
    readingsOfIntents c.table [(intent, [c.slotSentence])] =
      c.numbers.flatMap fun n => (Number.forms n).map fun ws => (intent, c.reading n ws) := by
  rw [readingsOfIntents, List.flatMap_singleton, List.map_singleton, unfold_slotSentence,
    readingsOfEach, readingsOfEach, List.append_nil, Tree.readings_word_group,
    Tree.readings_group_singleton, Tree.readings, readingsOfEach_eq_flatMap, List.flatMap_map]
  simp only [Number.readings_tree, List.map_flatMap, List.map_map]
  rfl

theorem filled_slotSentence (intent : String) : (c.slotSentence.unfold c.table intent).Filled := by
  have hnumbers : AllFilled (c.numbers.map Number.tree) :=
    allFilled_iff_forall.mpr (List.forall_mem_map.mpr fun n hn =>
      Number.filled_tree (c.fits_of_mem_numbers hn))
  simp [unfold_slotSentence, Tree.Filled, AllFilled, hnumbers]

theorem whole_slotSentence (intent : String) : (c.slotSentence.unfold c.table intent).Whole := by
  have hnumbers : AllWhole (c.numbers.map Number.tree) :=
    allWhole_iff_forall.mpr (List.forall_mem_map.mpr fun n _ => Number.whole_tree n)
  simp [unfold_slotSentence, Tree.Whole, AllWhole, hnumbers, c.numbers_ne_nil]

end RangeCommand

/-! ## What is written in the templates -/

/-- All words and substitutions at the node are ordinary. -/
def Head.Ordinary (h : Head) : Prop := ∀ x ∈ h.word.toList ++ h.substitutions, Utterance.Ordinary x

/-- All that is written in the expression is ordinary. -/
def Expr.Ordinary (e : Expr) : Prop := ∀ h ∈ e.heads, h.Ordinary

namespace Expr

theorem ordinary_plain {w : String} (hw : Utterance.Ordinary w) : (plain w).Ordinary := by
  intro h hh x hx
  obtain rfl : h = ⟨some w, {}, none⟩ := by simpa [plain, heads, nodes, head] using hh
  obtain rfl : x = w := by simpa [Head.substitutions, tagSubstitution] using hx
  exact hw

theorem ordinary_slot (text name : String) (converters : List String) :
    (slot text name { converters } none).Ordinary := by
  intro h hh x hx
  obtain rfl : h = ⟨none, { converters }, none⟩ := by simpa [heads, nodes, head] using hh
  simp [Head.substitutions, tagSubstitution] at hx

theorem ordinary_seq {kind : SequenceKind} {text : String} {items : List Expr} {suffix : Suffix}
    {tag : Option Tag} (hhead : ∀ x ∈ Head.substitutions ⟨none, suffix, tag⟩, Utterance.Ordinary x)
    (hitems : ∀ e ∈ items, e.Ordinary) : (seq kind text items suffix tag).Ordinary := by
  intro h hh
  rcases mem_heads_seq.mp hh with rfl | ⟨e, he, hh⟩
  · exact hhead
  · exact hitems e he h hh

end Expr

namespace Number

variable {n : Int}

theorem ordinary_spokenExprs {text : String} : ∀ {ws : List String}, (∀ w ∈ ws, Ordinary w) →
    ∀ e ∈ spokenExprs text ws, e.Ordinary
  | [], _, _, he => (List.not_mem_nil he).elim
  | [w], hws, e, he => by
      rw [spokenExprs] at he
      split at he
      · exact (List.not_mem_nil he).elim
      · rw [List.mem_singleton.mp he]
        exact Expr.ordinary_plain (hws w (List.mem_singleton_self w))
  | w :: w' :: ws, hws, e, he => by
      rw [spokenExprs, List.mem_singleton] at he
      · rw [he]
        exact Expr.ordinary_seq (fun _ hx => (List.not_mem_nil hx).elim)
          (List.forall_mem_map.mpr fun w hw => Expr.ordinary_plain (hws w hw))
      · simp
      · simp

theorem ordinary_valueExpr (hn : Decimal.fitsInt64 n = true) : (valueExpr n).Ordinary := by
  have hspoken : ∀ e ∈ spokenExprs n.repr (English.spell n), e.Ordinary :=
    ordinary_spokenExprs fun w hw => (lettered_of_mem_spell hn w hw).ordinary
  refine Expr.ordinary_seq (fun _ hx => (List.not_mem_nil hx).elim)
    (List.forall_mem_singleton.mpr (Expr.ordinary_seq (fun x hx => ?_)
      (List.forall_mem_cons.mpr ⟨Expr.ordinary_plain (ordinary_repr n), hspoken⟩)))
  obtain rfl : x = n.repr := by simpa [Head.substitutions, tagSubstitution] using hx
  exact ordinary_repr n

end Number

namespace RangeCommand

variable (c : RangeCommand)

theorem ordinary_heads (intent : String) :
    ∀ h ∈ IntentSentences.heads [(intent, [c.slotSentence])] ++ c.table.heads, h.Ordinary := by
  have hsentence : c.slotSentence.toExpr.Ordinary :=
    Expr.ordinary_seq (fun _ hx => (List.not_mem_nil hx).elim) (List.forall_mem_cons.mpr
      ⟨Expr.ordinary_plain c.lettered_word.ordinary, List.forall_mem_singleton.mpr
        (Expr.ordinary_seq (fun _ hx => (List.not_mem_nil hx).elim)
          (List.forall_mem_singleton.mpr (Expr.ordinary_slot _ _ _)))⟩)
  refine List.forall_mem_append.mpr ⟨?_, ?_⟩
  · simpa [IntentSentences.heads, Expr.Ordinary] using hsentence
  · have hvalues : ∀ n ∈ c.numbers, ∀ h ∈ (Number.valueExpr n).heads, h.Ordinary := fun n hn =>
      Number.ordinary_valueExpr (c.fits_of_mem_numbers hn)
    simpa [Table.heads, table] using fun h n hn => hvalues n hn h

end RangeCommand

/-! ## What is heard -/

theorem Reading.heardInTurn_words {ws : List String} (hws : ∀ w ∈ ws, Ordinary w) :
    heardInTurn (ws.map fun w => .word w {} none) = ws := by
  induction ws with
  | nil => rfl
  | cons w ws ih =>
      obtain ⟨hw, hws⟩ := List.forall_mem_cons.mp hws
      rw [List.map_cons, heardInTurn, heard, if_neg hw.ne, ih hws]
      rfl

theorem Reading.heard_ofWords : ∀ {ws : List String}, (∀ w ∈ ws, Ordinary w) →
    (ofWords ws).heard = ws
  | [w], hws => by rw [ofWords, heard, if_neg (hws w (List.mem_singleton_self w)).ne]
  | [], _ => rfl
  | w :: w' :: ws, hws => by
      rw [ofWords, heard, heardInTurn_words hws]
      simp

theorem RangeCommand.heard_reading (c : RangeCommand) (n : Int) {ws : List String}
    (hws : ∀ w ∈ ws, Ordinary w) : (c.reading n ws).heard = c.word :: ws := by
  simp [reading, Number.reading, Reading.heard, Reading.heardInTurn, Reading.heard_ofWords hws,
    c.lettered_word.ne]

/-- No two readings of the template are heard alike. -/
theorem RangeCommand.nodup_heard (c : RangeCommand) (intent : String) :
    ((readingsOfIntents c.table [(intent, [c.slotSentence])]).map fun q => q.2.heard).Nodup := by
  have hheard : ∀ n ∈ c.numbers, (Number.forms n).map (fun ws => (c.reading n ws).heard) =
      (Number.forms n).map (c.word :: ·) := fun n hn => List.map_congr_left fun ws hws =>
    c.heard_reading n (Number.ordinary_of_mem_forms (c.fits_of_mem_numbers hn) hws)
  rw [readingsOfIntents_eq, List.map_flatMap]
  simp only [List.map_map, Function.comp_def]
  rw [List.flatMap_congr hheard, ← List.map_flatMap]
  refine List.Nodup.map (List.cons_injective) (List.nodup_flatMap.mpr ⟨fun n hn =>
    Number.nodup_forms (c.fits_of_mem_numbers hn), ?_⟩)
  refine c.nodup_numbers.imp_of_mem fun hm hn hne => List.disjoint_left.mpr fun ws hwm hwn => hne ?_
  exact Number.eq_of_mem_forms (c.fits_of_mem_numbers hm) (c.fits_of_mem_numbers hn) hwm hwn

end Utterance
