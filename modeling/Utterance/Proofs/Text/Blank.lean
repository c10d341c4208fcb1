import Mathlib.Data.List.TakeWhile
import Utterance.Text.Blank

/-!
# Cutting texts apart

Trimming leaves a text alone exactly when no blank stands at its edges
(`trim_eq_self_iff`).  The pieces between separators and the runs outside them
are read off a text that is put together from its pieces: `splitAt_append` takes
up the first piece, `splitRuns_append` starts afresh behind a separator, and
words joined by blanks are the words that were joined (`words_intercalate`).
-/

namespace Utterance.Text

variable {α : Type} {sep p : α → Bool}

/-! ## Trimming -/

theorem not_isBlank_of_isDigit {c : Char} (h : c.isDigit = true) : isBlank c = false := by
  have hrange : 48 ≤ c.toNat ∧ c.toNat ≤ 57 := by
    rw [Char.isDigit, Bool.and_eq_true, decide_eq_true_eq, decide_eq_true_eq] at h
    exact h
  simp only [isBlank, Bool.or_eq_false_iff, Bool.and_eq_false_iff, decide_eq_false_iff_not,
    beq_eq_false_iff_ne]
  omega

theorem dropWhile_eq_self {as : List α} (h : ∀ a ∈ as.head?, p a = false) :
    as.dropWhile p = as := by
  cases as with
  | nil => rfl
  | cons a as => rw [List.dropWhile_cons, h a rfl, if_neg Bool.false_ne_true]

theorem of_mem_head?_dropWhile {as : List α} {a : α} (h : a ∈ (as.dropWhile p).head?) :
    p a = false := by
  have := List.head?_dropWhile_not p as
  rw [Option.mem_def.mp h] at this
  simpa using this

theorem head?_of_dropWhile_eq {as : List α} (h : as.dropWhile p = as) :
    ∀ a ∈ as.head?, p a = false := by
  rintro a ha
  rw [← h] at ha
  exact of_mem_head?_dropWhile ha

theorem dropEndWhile_eq_self {cs : List Char} {p : Char → Bool}
    (h : ∀ c ∈ cs.getLast?, p c = false) : dropEndWhile p cs = cs := by
  rw [dropEndWhile, dropWhile_eq_self (by rwa [List.head?_reverse]), List.reverse_reverse]

theorem length_dropEndWhile_le (p : Char → Bool) (cs : List Char) :
    (dropEndWhile p cs).length ≤ cs.length := by
  simpa [dropEndWhile] using (List.dropWhile_suffix (l := cs.reverse) p).length_le

/-- A text is left alone by trimming exactly when no blank stands first or last. -/
theorem trim_eq_self_iff {cs : List Char} :
    trim cs = cs ↔
      (∀ c ∈ cs.head?, isBlank c = false) ∧ ∀ c ∈ cs.getLast?, isBlank c = false := by
  refine ⟨fun h => ?_, fun ⟨hfirst, hlast⟩ => ?_⟩
  · have hle : cs.length ≤ (cs.dropWhile isBlank).length :=
      calc cs.length = (trim cs).length := by rw [h]
        _ ≤ (cs.dropWhile isBlank).length := length_dropEndWhile_le isBlank _
    have hstart : cs.dropWhile isBlank = cs :=
      (List.dropWhile_suffix isBlank).eq_of_length_le hle
    rw [trim, dropAround, hstart, dropEndWhile, List.reverse_eq_iff] at h
    exact ⟨head?_of_dropWhile_eq hstart, by
      simpa only [List.head?_reverse] using head?_of_dropWhile_eq h⟩
  · rw [trim, dropAround, dropWhile_eq_self hfirst, dropEndWhile_eq_self hlast]

/-- A text without blanks is not trimmed. -/
theorem trim_of_not_blank {cs : List Char} (h : ∀ c ∈ cs, isBlank c = false) : trim cs = cs :=
  trim_eq_self_iff.mpr
    ⟨fun _ hc => h _ (List.mem_of_mem_head? hc), fun _ hc => h _ (List.mem_of_mem_getLast? hc)⟩

/-- No blank is left to be trimmed. -/
theorem trim_trim (cs : List Char) : trim (trim cs) = trim cs := by
  refine trim_eq_self_iff.mpr ⟨fun c hc => ?_, fun c hc => ?_⟩
  · have hprefix : trim cs <+: cs.dropWhile isBlank := by
      rw [trim, dropAround, dropEndWhile, ← List.reverse_suffix, List.reverse_reverse]
      exact List.dropWhile_suffix isBlank
    have hfirst : c ∈ (cs.dropWhile isBlank).head? := by
      obtain ⟨after, hafter⟩ := hprefix
      rw [← hafter, List.head?_append, Option.mem_def.mp hc]
      exact Option.mem_some_self c
    exact of_mem_head?_dropWhile hfirst
  · rw [trim, dropAround, dropEndWhile, List.getLast?_reverse] at hc
    exact of_mem_head?_dropWhile hc

/-- Blanks around a text are trimmed. -/
theorem trim_surrounded {before cs after : List Char} (hbefore : ∀ c ∈ before, isBlank c = true)
    (hcs : ∀ c ∈ cs, isBlank c = false) (hne : cs ≠ []) (hafter : ∀ c ∈ after, isBlank c = true) :
    trim (before ++ cs ++ after) = cs := by
  have hfirst : ∀ c ∈ (cs ++ after).head?, isBlank c = false := by
    rw [List.head?_append, List.head?_eq_some_head hne, Option.some_or, ← List.head?_eq_some_head]
    exact fun c hc => hcs c (List.mem_of_mem_head? hc)
  have hlast : ∀ c ∈ cs.reverse.head?, isBlank c = false := fun c hc =>
    hcs c (List.mem_reverse.mp (List.mem_of_mem_head? hc))
  rw [trim, dropAround, List.append_assoc, List.dropWhile_append_of_pos hbefore,
    dropWhile_eq_self hfirst, dropEndWhile, List.reverse_append, List.dropWhile_append_of_pos
      (fun c hc => hafter c (List.mem_reverse.mp hc)), dropWhile_eq_self hlast, List.reverse_reverse]

theorem trim_subset (cs : List Char) : trim cs ⊆ cs := by
  intro c hc
  rw [trim, dropAround, dropEndWhile, List.mem_reverse] at hc
  have hc := (List.dropWhile_suffix isBlank).subset hc
  rw [List.mem_reverse] at hc
  exact (List.dropWhile_suffix isBlank).subset hc

/-- Only the outer edges of a text that is put together count. -/
theorem trim_append {cs ds : List Char} (hcs : trim cs = cs) (hds : trim ds = ds) (hcs' : cs ≠ [])
    (hds' : ds ≠ []) (between : List Char) :
    trim (cs ++ between ++ ds) = cs ++ between ++ ds := by
  rw [trim_eq_self_iff] at hcs hds ⊢
  have hfirst : (cs ++ between ++ ds).head? = cs.head? := by
    rw [List.append_assoc, List.head?_append, List.head?_eq_some_head hcs', Option.some_or]
  have hlast : (cs ++ between ++ ds).getLast? = ds.getLast? := by
    rw [List.getLast?_append, List.getLast?_eq_some_getLast hds', Option.some_or]
  exact ⟨hfirst ▸ hcs.1, hlast ▸ hds.2⟩

/-! ## Pieces between separators -/

theorem splitAt_ne_nil (sep : α → Bool) (as : List α) : splitAt sep as ≠ [] := by
  cases as with
  | nil => exact List.cons_ne_nil _ _
  | cons a as => rw [splitAt]; split <;> [skip; split] <;> exact List.cons_ne_nil _ _

theorem splitAt_cons_of_sep {a : α} (h : sep a = true) (as : List α) :
    splitAt sep (a :: as) = [] :: splitAt sep as := by
  rw [splitAt, if_pos h]

/-- What stands before the first separator goes to the first piece. -/
theorem splitAt_append {as : List α} (h : ∀ a ∈ as, sep a = false) (bs : List α) :
    splitAt sep (as ++ bs) = (splitAt sep bs).modifyHead (as ++ ·) := by
  induction as with
  | nil => cases hbs : splitAt sep bs <;> simp [hbs]
  | cons a as ih =>
      rw [List.forall_mem_cons] at h
      rw [List.cons_append, splitAt, h.1, if_neg Bool.false_ne_true, ih h.2]
      cases hbs : splitAt sep bs with
      | nil => exact absurd hbs (splitAt_ne_nil sep bs)
      | cons piece pieces => rfl

/-- At a separator the pieces before it end. -/
theorem splitAt_append_cons {a : α} (h : sep a = true) (as bs : List α) :
    splitAt sep (as ++ a :: bs) = splitAt sep as ++ splitAt sep bs := by
  induction as with
  | nil => exact splitAt_cons_of_sep h bs
  | cons c as ih =>
      rw [List.cons_append, splitAt, splitAt, ih]
      split
      · rfl
      · cases hpieces : splitAt sep as with
        | nil => exact absurd hpieces (splitAt_ne_nil sep as)
        | cons piece pieces => rfl

/-- Behind a line feed the lines are those of another text. -/
theorem lines_append (cs ds : List Char) :
    lines (cs ++ '\n' :: ds) = lines (cs ++ ['\n']) ++ lines ds := by
  have hpieces : ∀ ds, splitAt (· == '\n') (cs ++ '\n' :: ds) =
      splitAt (· == '\n') cs ++ splitAt (· == '\n') ds := splitAt_append_cons rfl cs
  have hne := splitAt_ne_nil (· == '\n') ds
  have hnil : splitAt (· == '\n') [] = [[]] := rfl
  have hlast := List.getLast?_eq_some_getLast hne
  rw [lines, lines, lines, hpieces ds, hpieces [], List.dropLast_append_of_ne_nil hne,
    List.map_append, List.getLast?_append, hlast, Option.some_or, hnil, List.getLast?_concat,
    List.dropLast_concat]
  cases (splitAt (· == '\n') ds).getLast hne <;> simp

theorem splitAt_of_no_sep {as : List α} (h : ∀ a ∈ as, sep a = false) : splitAt sep as = [as] := by
  simpa [splitAt] using splitAt_append h []

/-- The pieces are what stands between the separators. -/
theorem flatten_splitAt (as : List α) : (splitAt sep as).flatten = as.filter (!sep ·) := by
  induction as with
  | nil => rfl
  | cons a as ih =>
      rw [splitAt]
      split_ifs with ha
      · rw [List.flatten_cons, List.nil_append, ih, List.filter_cons_of_neg (by simp [ha])]
      · rw [List.filter_cons_of_pos (by simp [ha]), ← ih]
        cases hpieces : splitAt sep as with
        | nil => exact absurd hpieces (splitAt_ne_nil sep as)
        | cons piece pieces => rfl

/-- All pieces are empty where there is nothing but separators. -/
theorem filter_splitAt_eq_nil_iff {as : List α} :
    (splitAt sep as).filter (!·.isEmpty) = [] ↔ ∀ a ∈ as, sep a = true := by
  have hflatten : (splitAt sep as).filter (!·.isEmpty) = [] ↔ (splitAt sep as).flatten = [] := by
    simp
  rw [hflatten, flatten_splitAt, List.filter_eq_nil_iff]
  simp

/-! ## Runs outside separators -/

/-- Behind a separator the runs are read as at the start. -/
theorem splitRuns_append {a : α} (h : sep a = true) (run as bs : List α) :
    splitRuns sep run (as ++ a :: bs) = splitRuns sep run as ++ splitRuns sep [] bs := by
  induction as generalizing run with
  | nil => simp only [List.nil_append, splitRuns, h, if_pos]; split <;> rfl
  | cons b as ih =>
      simp only [List.cons_append, splitRuns]
      split
      · split <;> simp [ih]
      · exact ih _

theorem splitRuns_snoc {a : α} (h : sep a = true) (run as : List α) :
    splitRuns sep run (as ++ [a]) = splitRuns sep run as := by
  simp [splitRuns_append h, splitRuns]

/-- Without separators there is one run, unless there is nothing. -/
theorem splitRuns_of_no_sep {run as : List α} (h : ∀ a ∈ as, sep a = false)
    (hne : run.reverse ++ as ≠ []) : splitRuns sep run as = [run.reverse ++ as] := by
  induction as generalizing run with
  | nil =>
      have hrun : run.isEmpty = false := by cases run <;> simp_all
      rw [splitRuns, hrun, if_neg Bool.false_ne_true, List.append_nil]
  | cons a as ih =>
      rw [List.forall_mem_cons] at h
      rw [splitRuns, h.1, if_neg Bool.false_ne_true, ih h.2 (by simp)]
      simp

/-- There are no runs where there is nothing but separators. -/
theorem splitRuns_eq_nil_iff {run as : List α} :
    splitRuns sep run as = [] ↔ run = [] ∧ ∀ a ∈ as, sep a = true := by
  induction as generalizing run with
  | nil => cases run <;> simp [splitRuns]
  | cons a as ih =>
      rw [splitRuns, List.forall_mem_cons]
      split_ifs with ha hrun
      · simp [ih, ha, List.isEmpty_iff.mp hrun]
      · simp [mt List.isEmpty_iff.mpr hrun]
      · simp [ih, ha]

/-- A run has elements, and none of those that are added to it is a separator. -/
theorem of_mem_splitRuns {run as l : List α} (h : l ∈ splitRuns sep run as) :
    l ≠ [] ∧ ∀ a ∈ l, a ∈ run ∨ a ∈ as ∧ sep a = false := by
  induction as generalizing run with
  | nil =>
      rw [splitRuns] at h
      split at h
      · cases h
      next hrun =>
        obtain rfl := List.mem_singleton.mp h
        exact ⟨by simpa using hrun, fun a ha => .inl (List.mem_reverse.mp ha)⟩
  | cons b as ih =>
      have hlater {run : List α} (h : l ∈ splitRuns sep run as) :
          l ≠ [] ∧ ∀ a ∈ l, a ∈ run ∨ a ∈ b :: as ∧ sep a = false :=
        (ih h).imp_right fun hall a ha => (hall a ha).imp_right
          fun ⟨hmem, hsep⟩ => ⟨List.mem_cons_of_mem b hmem, hsep⟩
      have hfresh (h : l ∈ splitRuns sep [] as) :
          l ≠ [] ∧ ∀ a ∈ l, a ∈ run ∨ a ∈ b :: as ∧ sep a = false :=
        (hlater h).imp_right fun hall a ha => .inr ((hall a ha).resolve_left List.not_mem_nil)
      rw [splitRuns] at h
      split_ifs at h with hb hrun
      · exact hfresh h
      · rcases List.mem_cons.mp h with rfl | h
        · exact ⟨by simpa using hrun, fun a ha => .inl (List.mem_reverse.mp ha)⟩
        · exact hfresh h
      · refine (hlater h).imp_right fun hall a ha => (hall a ha).elim (fun hmem => ?_) .inr
        rcases List.mem_cons.mp hmem with rfl | hmem
        · exact .inr ⟨List.mem_cons_self, by simpa using hb⟩
        · exact .inl hmem

/-! ## Cutting at a character -/

theorem cutAt?_append {sep : Char} {cs : List Char} (h : sep ∉ cs) (ds : List Char) :
    cutAt? sep (cs ++ sep :: ds) = some (cs, ds) := by
  have hall : ∀ c ∈ cs, (c != sep) = true := fun c hc => by
    rw [bne_iff_ne]
    rintro rfl
    exact h hc
  simp [cutAt?, List.dropWhile_append_of_pos hall, List.takeWhile_append_of_pos hall]

theorem cutAt?_of_not_mem {sep : Char} {cs : List Char} (h : sep ∉ cs) : cutAt? sep cs = none := by
  have hdrop : cs.dropWhile (· != sep) = [] := List.dropWhile_eq_nil_iff.mpr fun c hc => by
    rw [bne_iff_ne]
    rintro rfl
    exact h hc
  rw [cutAt?, hdrop]

theorem cutAt?_eq_some_iff {sep : Char} {cs before after : List Char} :
    cutAt? sep cs = some (before, after) ↔ cs = before ++ sep :: after ∧ sep ∉ before := by
  refine ⟨fun h => ?_, fun ⟨heq, hsep⟩ => heq ▸ cutAt?_append hsep after⟩
  rw [cutAt?] at h
  split at h
  next => cases h
  next c rest hdrop =>
    cases h
    have hc : c = sep := by
      have hfirst : c ∈ (cs.dropWhile (· != sep)).head? := by simp [hdrop]
      simpa using of_mem_head?_dropWhile hfirst
    refine ⟨?_, fun hmem => ?_⟩
    · rw [hc] at hdrop
      rw [← hdrop, List.takeWhile_append_dropWhile]
    · simpa using List.mem_takeWhile_imp hmem

theorem cutAtLast?_append {sep : Char} {ds : List Char} (h : sep ∉ ds) (cs : List Char) :
    cutAtLast? sep (cs ++ sep :: ds) = some (cs, ds) := by
  rw [cutAtLast?, List.reverse_append, List.reverse_cons, List.append_assoc, List.singleton_append,
    cutAt?_append (by rwa [List.mem_reverse])]
  simp

theorem cutAtLast?_of_not_mem {sep : Char} {cs : List Char} (h : sep ∉ cs) :
    cutAtLast? sep cs = none := by
  rw [cutAtLast?, cutAt?_of_not_mem (by rwa [List.mem_reverse]), Option.map_none]

/-! ## Words -/

/-- What holds of the separator and of all pieces holds of the pieces put together. -/
theorem forall_mem_intercalate {P : α → Prop} {between : List α} {pieces : List (List α)}
    (hbetween : ∀ a ∈ between, P a) (h : ∀ piece ∈ pieces, ∀ a ∈ piece, P a) :
    ∀ a ∈ between.intercalate pieces, P a := by
  induction pieces with
  | nil => simp
  | cons piece pieces ih =>
      rw [List.forall_mem_cons] at h
      cases pieces with
      | nil => simpa using h.1
      | cons piece' pieces =>
          rw [List.intercalate_cons_cons]
          intro a ha
          rw [List.mem_append, List.mem_append] at ha
          rcases ha with (ha | ha) | ha
          · exact h.1 a ha
          · exact hbetween a ha
          · exact ih h.2 a ha

/-- A word has characters, and none of them is blank. -/
def IsWord (cs : List Char) : Prop := cs ≠ [] ∧ ∀ c ∈ cs, isBlank c = false

theorem isWord_iff {cs : List Char} : IsWord cs ↔ cs ≠ [] ∧ cs.all (fun c => !isBlank c) := by
  simp [IsWord]

instance (cs : List Char) : Decidable (IsWord cs) := decidable_of_iff' _ isWord_iff

theorem words_intercalate {ws : List (List Char)} (h : ∀ w ∈ ws, IsWord w) :
    words ([' '].intercalate ws) = ws := by
  induction ws with
  | nil => rfl
  | cons w ws ih =>
      rw [List.forall_mem_cons] at h
      obtain ⟨⟨hne, hw⟩, hws⟩ := h
      have hone : splitRuns isBlank [] w = [w] := splitRuns_of_no_sep hw hne
      cases ws with
      | nil => rw [List.intercalate_singleton, words, hone]
      | cons w' ws =>
          rw [List.intercalate_cons_cons, List.append_assoc, List.singleton_append, words,
            splitRuns_append rfl, hone, List.singleton_append]
          exact congrArg (w :: ·) (ih hws)

theorem words_intercalate_map {ws : List String} (h : ∀ w ∈ ws, IsWord w.toList) :
    words ([' '].intercalate (ws.map String.toList)) = ws.map String.toList :=
  words_intercalate (List.forall_mem_map.mpr h)

theorem map_ofList_map_toList (ws : List String) :
    (ws.map String.toList).map String.ofList = ws := by
  rw [List.map_map]
  exact (List.map_congr_left fun w _ => String.ofList_toList).trans (List.map_id ws)

end Utterance.Text
