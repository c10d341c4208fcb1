import Utterance.Proofs.Graph.Subdivision
import Utterance.Proofs.Wording.Casing

/-!
# What casing does to an edge

A word in another case says the old text, which has become its substitution.  If the word says
something at all, the edge that heard and said it becomes two edges in a row: one hears the new
word, the other says the old text (`Casing.cut`).  If it stands in a substitution, or has one
already, it says nothing, and its edge stays whole.  In both cases the same is said, and what is
heard is the same in the other case (`Casing.labelsOf_cut`, `Casing.heardOf_cut`).

Each step of building adds a state to a graph.  The same step with a cased word, added to a graph
that subdivides it, gives a subdivision again (`Subdivides.addWord`, `Subdivides.cutWord`).
-/

namespace Utterance

open Utterance.Graph

/-! ## Cased words -/

namespace Casing

variable {c : Casing} {text : String}

theorem apply_eq_empty_iff : c.apply text = "" ↔ text = "" := by
  cases c with
  | keep => exact Iff.rfl
  | lower => exact String.lowerCase_eq_empty_iff
  | upper => exact String.upperCase_eq_empty_iff

theorem keeps_wildcard (c : Casing) : c.Keeps wildcard := by
  unfold Keeps
  cases c <;> decide

theorem eq_wildcard_of_apply (h : c.apply text = wildcard) : text = wildcard := by
  cases c with
  | keep => exact h
  | lower => exact String.eq_star_of_lowerCase h
  | upper => exact String.eq_star_of_upperCase h

/-- A word whose text changes has a substitution. -/
def suffixOf (c : Casing) (text : String) (suffix : Suffix) : Suffix :=
  if c.apply text = text then suffix
  else { suffix with substitution := some (suffix.substitution.getD [text]) }

theorem suffixOf_of_keeps (h : c.Keeps text) (suffix : Suffix) : c.suffixOf text suffix = suffix :=
  if_pos h

theorem suffixOf_of_not_keeps (h : ¬c.Keeps text) (suffix : Suffix) :
    c.suffixOf text suffix =
      { suffix with substitution := some (suffix.substitution.getD [text]) } := if_neg h

theorem word_eq (c : Casing) (text : String) (suffix : Suffix) (tag : Option Tag) :
    c.word text suffix tag = .word (c.apply text) (c.suffixOf text suffix) tag := by
  rw [word]
  by_cases h : c.Keeps text
  · rw [suffixOf_of_keeps h, h, beq_self_eq_true, if_pos rfl]
  · have hne : ¬(c.apply text == text) = true := fun heq => h (eq_of_beq heq)
    rw [suffixOf_of_not_keeps h]
    exact if_neg hne

/-- The tree of a cased word. -/
def tree (c : Casing) (text : String) (suffix : Suffix) (tag : Option Tag) : Tree :=
  .word (c.apply text) (c.suffixOf text suffix) tag

theorem unfold_word (c : Casing) (t : Table) (scope : Scope) (text : String) (suffix : Suffix)
    (tag : Option Tag) : unfold t scope (c.word text suffix tag) = c.tree text suffix tag := by
  rw [word_eq, unfold, tree]

/-! ## Cut edges -/

/-- The edges in the place of one with the mark, once words are cased. -/
def cut (c : Casing) (m : Mark) : Cut :=
  if c.apply m.input = m.input ∨ m.output = "" then .whole ⟨c.apply m.input, m.output⟩
  else .halves ⟨c.apply m.input, ""⟩ ⟨"", m.output⟩

variable {m : Mark}

theorem cut_of_keeps (h : c.Keeps m.input) : c.cut m = .whole m := by
  have hinput : c.apply m.input = m.input := h
  rw [cut, if_pos (.inl h), hinput]

theorem cut_silent (c : Casing) : c.cut Mark.silent = .whole Mark.silent :=
  cut_of_keeps c.keeps_empty

theorem cut_unheard (c : Casing) (label : String) : c.cut ⟨"", label⟩ = .whole ⟨"", label⟩ :=
  cut_of_keeps c.keeps_empty

theorem cut_loop (c : Casing) : c.cut Mark.loop = .whole Mark.loop :=
  cut_of_keeps c.keeps_wildcard

theorem cut_unsaid (c : Casing) (text : String) : c.cut ⟨text, ""⟩ = .whole ⟨c.apply text, ""⟩ :=
  if_pos (.inr rfl)

theorem cut_of_not_keeps (h : ¬c.Keeps m.input) (hsaid : m.output ≠ "") :
    c.cut m = .halves ⟨c.apply m.input, ""⟩ ⟨"", m.output⟩ :=
  if_neg fun hor => hor.elim h hsaid

/-- Only a word that changes is cut in two. -/
theorem not_keeps_of_cut {n n' : Mark} (h : c.cut m = .halves n n') : ¬c.Keeps m.input := by
  intro hkeeps
  rw [cut_of_keeps hkeeps] at h
  cases h

end Casing

/-- The labels that marks say. -/
def labelsOf (ms : List Mark) : List String := (ms.map Mark.output).filter (· ≠ "")

theorem labelsOf_append (ms ns : List Mark) :
    labelsOf (ms ++ ns) = labelsOf ms ++ labelsOf ns := by
  rw [labelsOf, List.map_append, List.filter_append]
  rfl

namespace Casing

/-- What is in the place of edges says the same labels. -/
theorem labelsOf_cut (c : Casing) (ms : List Mark) :
    labelsOf (ms.flatMap fun m => (c.cut m).marks) = labelsOf ms := by
  have hone : ∀ m, labelsOf (c.cut m).marks = labelsOf [m] := fun m => by
    rw [cut]
    split
    · rfl
    · rfl
  induction ms with
  | nil => rfl
  | cons m ms ih =>
      rw [List.flatMap_cons, labelsOf_append, hone, ih, ← labelsOf_append, List.singleton_append]

/-- What is in the place of edges hears the same words in the other case. -/
theorem heardOf_cut (c : Casing) (ms : List Mark) :
    heardOf (ms.flatMap fun m => (c.cut m).marks) = (heardOf ms).map c.apply := by
  have hone : ∀ m, heardOf (c.cut m).marks = (heardOf [m]).map c.apply := fun m => by
    have hcased : (heardOf [m]).map c.apply = [c.apply m.input].filter (· ≠ "") := by
      rw [heardOf, List.map_singleton, List.filter_singleton, List.filter_singleton]
      by_cases hempty : m.input = ""
      · simp [hempty, apply_eq_empty_iff]
      · simp [hempty, apply_eq_empty_iff]
    rw [hcased, cut]
    split
    · rfl
    · change ([c.apply m.input] ++ [""]).filter (· ≠ "") = _
      rw [List.filter_append]
      exact List.append_nil _
  induction ms with
  | nil => rfl
  | cons m ms ih =>
      rw [List.flatMap_cons, heardOf_append, hone, ih, ← List.map_append, ← heardOf_append,
        List.singleton_append]

end Casing

theorem Label.pack_ne_empty {text : String} (h : text ≠ "") : pack text ≠ "" := by
  rw [pack]
  split
  · exact fun hempty => absurd (String.append_eq_empty_iff.mp hempty).1 (by decide)
  · exact h

/-! ## Adding to both graphs -/

namespace Graph

variable {g h : Graph} {s : Nat}

namespace Subdivides

variable {c : Casing} {place : Nat → Nat}

theorem emit (S : Subdivides c.cut place g h) (hs : s < g.size) (label : String) :
    Subdivides c.cut (Function.update place g.size h.size) (g.emit s label).1
      (h.emit (place s) label).1 := by
  have hplace : Function.update place g.size h.size s = place s :=
    Function.update_of_ne (Nat.ne_of_lt hs) _ _
  have hs' := S.lt_size hs
  refine S.grow (extends_emit S.before hs label).ascending
    (extends_emit S.after hs' label).ascending (size_emit g s label) (size_emit h _ label)
    (Nat.le_refl _) (adds_emit S.before hs label) ?_ ?_
  · rw [List.flatMap_singleton, c.cut_unheard, Cut.edges, Function.update_self, hplace]
    exact adds_emit S.after hs' label
  · intro a b m n n' hmem hcut
    cases List.mem_singleton.mp hmem
    exact absurd c.keeps_empty (c.not_keeps_of_cut hcut)

/-- A word whose edge stays whole. -/
theorem addWord (S : Subdivides c.cut place g h) (hs : s < g.size) {r r' : Bool} {text : String}
    (hcut : c.cut ⟨text, if r then "" else Label.pack text⟩ =
      .whole ⟨c.apply text, if r' then "" else Label.pack (c.apply text)⟩) :
    Subdivides c.cut (Function.update place g.size h.size)
      (g.addWord s text (if r then "" else Label.pack text)).1
      (h.addWord (place s) (c.apply text) (if r' then "" else Label.pack (c.apply text))).1 := by
  have hplace : Function.update place g.size h.size s = place s :=
    Function.update_of_ne (Nat.ne_of_lt hs) _ _
  have hs' := S.lt_size hs
  refine S.grow (extends_addWord S.before hs r text).ascending
    (extends_addWord S.after hs' r' (c.apply text)).ascending (size_addWord g s _ _)
    (size_addWord h _ _ _) (Nat.le_refl _) (adds_addWord S.before hs _ _) ?_ ?_
  · have A := adds_addWord S.after hs' (c.apply text)
      (if r' then "" else Label.pack (c.apply text))
    rw [List.flatMap_cons, hcut, Cut.edges, Function.update_self, hplace]
    by_cases hwild : text = wildcard
    · have hcased : c.apply text = wildcard := by
        rw [hwild]
        exact c.keeps_wildcard
      rw [if_pos hcased] at A
      rw [if_pos hwild, List.flatMap_singleton, c.cut_loop, Cut.edges, hplace]
      exact A
    · rw [if_neg fun h => hwild (Casing.eq_wildcard_of_apply h)] at A
      rw [if_neg hwild]
      exact A
  · intro a b m n n' hmem hcut'
    rcases List.mem_cons.mp hmem with heq | hmem
    · cases heq
      rw [hcut] at hcut'
      cases hcut'
    · split at hmem
      · cases List.mem_singleton.mp hmem
        exact absurd c.keeps_wildcard (c.not_keeps_of_cut hcut')
      · cases hmem

/-- A word that says itself and whose text changes: its old text is said on an edge of its own. -/
theorem cutWord (S : Subdivides c.cut place g h) (hs : s < g.size) {text : String}
    (hchanges : ¬c.Keeps text) :
    Subdivides c.cut (Function.update place g.size (h.size + 1))
      (g.addWord s text (Label.pack text)).1
      ((h.addWord (place s) (c.apply text) "").1.emit h.size text).1 := by
  have hplace : Function.update place g.size (h.size + 1) s = place s :=
    Function.update_of_ne (Nat.ne_of_lt hs) _ _
  have hs' := S.lt_size hs
  have hsaid : Label.pack text ≠ "" := Label.pack_ne_empty fun hempty =>
    hchanges (hempty ▸ c.keeps_empty)
  have hwild : text ≠ wildcard := fun hwild => hchanges (hwild ▸ c.keeps_wildcard)
  have hmiddle : (h.addWord (place s) (c.apply text) "").1.Ascending :=
    (extends_addWord S.after hs' true (c.apply text)).ascending
  have hsize := size_addWord h (place s) (c.apply text) ""
  have hlt : h.size < (h.addWord (place s) (c.apply text) "").1.size := by omega
  have A := adds_addWord S.before hs text (Label.pack text)
  have A' := (adds_addWord S.after hs' (c.apply text) "").trans (adds_emit hmiddle hlt text)
  rw [if_neg hwild] at A
  rw [if_neg fun h => hwild (Casing.eq_wildcard_of_apply h), hsize] at A'
  refine S.grow (extends_addWord S.before hs false text).ascending
    (extends_emit hmiddle hlt text).ascending (size_addWord g s _ _)
    (by rw [size_emit, hsize]) (Nat.le_succ _) A ?_ ?_
  · intro a b m
    rw [A', List.flatMap_singleton, Casing.cut_of_not_keeps hchanges hsaid, Function.update_self,
      hplace, Cut.edges, Nat.add_sub_cancel, List.singleton_append, List.mem_pair, List.mem_pair,
      or_comm (a := (a, b, m) = _)]
  · intro a b m n n' hmem _
    cases List.mem_singleton.mp hmem
    exact ⟨rfl, rfl⟩

theorem join (S : Subdivides c.cut place g h) {xs : List Nat} (hxs : ∀ x ∈ xs, x < g.size) :
    Subdivides c.cut (Function.update place g.size h.size) (g.join xs).1
      (h.join (xs.map place)).1 := by
  have hxs' : ∀ x ∈ xs.map place, x < h.size := List.forall_mem_map.mpr fun x hx =>
    S.lt_size (hxs x hx)
  obtain ⟨hasc, hsize, -⟩ := join_spec S.before hxs
  obtain ⟨hasc', hsize', -⟩ := join_spec S.after hxs'
  refine S.grow hasc hasc' hsize hsize' (Nat.le_refl _) (adds_join S.before hxs) ?_ ?_
  · have hedges : (xs.map fun x => (x, g.size, Mark.silent)).flatMap (fun e => (c.cut e.2.2).edges
        (Function.update place g.size h.size e.1) (Function.update place g.size h.size e.2.1)) =
        (xs.map place).map fun x => (x, h.size, Mark.silent) := by
      rw [List.flatMap_map, List.map_map, List.map_eq_flatMap]
      refine List.flatMap_congr fun x hx => ?_
      rw [c.cut_silent, Cut.edges, Function.update_self,
        Function.update_of_ne (Nat.ne_of_lt (hxs x hx))]
      rfl
    rw [hedges]
    exact adds_join S.after hxs'
  · intro a b m n n' hmem hcut
    obtain ⟨x, -, heq⟩ := List.mem_map.mp hmem
    cases heq
    exact absurd c.keeps_empty (c.not_keeps_of_cut hcut)

end Subdivides

end Graph

end Utterance
