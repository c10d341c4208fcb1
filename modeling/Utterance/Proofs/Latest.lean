import Utterance.Proofs.Graph.Numbering

/-!
# Lists in which the last entry of a key counts

A list with keys is read so that an entry replaces the one before it with the same key and
stays in that one's place.  What comes of it is told here from the list as it was written:
`latest` has every key once, where it was first met, with the last entry that has it.  To
replace entries one by one comes to the same (`latest_concat`).
-/

namespace Utterance

variable {α κ : Type} [DecidableEq κ]

/-- The last entry of the list with this key. -/
def lastWith? (key : α → κ) (l : List α) (k : κ) : Option α :=
  l.reverse.find? fun a => decide (key a = k)

/-- Every key of the list, in the order in which they are first met, with the last entry that
has it. -/
def latest (key : α → κ) (l : List α) : List α := (l.map key).eraseDups.filterMap (lastWith? key l)

variable {key : α → κ} {l : List α} {a : α} {k : κ}

theorem lastWith?_eq_some_iff : lastWith? key l k = some a ↔
    key a = k ∧ ∃ before after, l = before ++ a :: after ∧ k ∉ after.map key := by
  rw [lastWith?, List.find?_eq_some_iff_append, decide_eq_true_iff]
  refine and_congr_right fun _ => ?_
  constructor
  · rintro ⟨later, earlier, hl, hlater⟩
    refine ⟨earlier.reverse, later.reverse, ?_, fun hk => ?_⟩
    · rw [← List.reverse_reverse l, hl]
      simp
    · obtain ⟨b, hb, hkey⟩ := List.mem_map.mp hk
      simpa [hkey] using hlater b (List.mem_reverse.mp hb)
  · rintro ⟨before, after, rfl, hafter⟩
    refine ⟨after.reverse, before.reverse, by simp, fun b hb => ?_⟩
    have hne : key b ≠ k := fun hkey =>
      hafter (List.mem_map.mpr ⟨b, List.mem_reverse.mp hb, hkey⟩)
    simpa using hne

theorem key_of_lastWith? (h : lastWith? key l k = some a) : key a = k :=
  (lastWith?_eq_some_iff.mp h).1

theorem exists_lastWith? (h : k ∈ l.map key) : ∃ a, lastWith? key l k = some a := by
  obtain ⟨a, ha, hkey⟩ := List.mem_map.mp h
  refine Option.isSome_iff_exists.mp (List.find?_isSome.mpr ⟨a, List.mem_reverse.mpr ha, ?_⟩)
  exact decide_eq_true hkey

theorem lastWith?_concat (key : α → κ) (l : List α) (a : α) (k : κ) :
    lastWith? key (l ++ [a]) k = if key a = k then some a else lastWith? key l k := by
  rw [lastWith?, List.reverse_concat, List.find?_cons]
  by_cases hkey : key a = k <;> simp [hkey, lastWith?]

theorem keys_latest (key : α → κ) (l : List α) :
    (latest key l).map key = (l.map key).eraseDups := by
  rw [latest, List.map_filterMap]
  refine (List.filterMap_congr fun k hk => ?_).trans List.filterMap_some
  obtain ⟨a, ha⟩ := exists_lastWith? (List.mem_eraseDups.mp hk)
  rw [ha, Option.map_some, key_of_lastWith? ha]

/-- The entries that count are those with a key that is not met again. -/
theorem mem_latest_iff : a ∈ latest key l ↔
    ∃ before after, l = before ++ a :: after ∧ key a ∉ after.map key := by
  rw [latest, List.mem_filterMap]
  constructor
  · rintro ⟨k, -, hk⟩
    obtain ⟨rfl, hlast⟩ := lastWith?_eq_some_iff.mp hk
    exact hlast
  · intro hlast
    refine ⟨key a, List.mem_eraseDups.mpr ?_, lastWith?_eq_some_iff.mpr ⟨rfl, hlast⟩⟩
    obtain ⟨before, after, rfl, -⟩ := hlast
    exact List.mem_map_of_mem (List.mem_append_right _ List.mem_cons_self)

theorem mem_of_mem_latest (h : a ∈ latest key l) : a ∈ l := by
  obtain ⟨before, after, rfl, -⟩ := mem_latest_iff.mp h
  exact List.mem_append_right _ List.mem_cons_self

theorem mem_latest_append_right {m : List α} (h : a ∈ latest key m) : a ∈ latest key (l ++ m) := by
  obtain ⟨before, after, rfl, hafter⟩ := mem_latest_iff.mp h
  exact mem_latest_iff.mpr ⟨l ++ before, after, (List.append_assoc ..).symm, hafter⟩

theorem exists_mem_latest (key : α → κ) (h : a ∈ l) : ∃ b ∈ latest key l, key b = key a := by
  have hkey : key a ∈ (latest key l).map key := by
    rw [keys_latest]
    exact List.mem_eraseDups.mpr (List.mem_map_of_mem h)
  exact List.mem_map.mp hkey

theorem eq_of_mem_latest {b : α} (ha : a ∈ latest key l) (hb : b ∈ latest key l)
    (h : key a = key b) : a = b :=
  List.inj_on_of_nodup_map (by rw [keys_latest]; exact nodup_eraseDups _) ha hb h

/-- A further entry stands in the place of the one with its key, or at the end. -/
theorem latest_concat (key : α → κ) (l : List α) (a : α) :
    latest key (l ++ [a]) =
      if key a ∈ (latest key l).map key then
        (latest key l).map fun old => if key old = key a then a else old
      else latest key l ++ [a] := by
  rw [keys_latest, latest, List.map_append, List.map_singleton, Graph.eraseDups_concat,
    Graph.appendNew]
  split
  next hmem =>
    rw [latest, List.map_filterMap]
    refine List.filterMap_congr fun k hk => ?_
    obtain ⟨old, hold⟩ := exists_lastWith? (List.mem_eraseDups.mp hk)
    rw [lastWith?_concat, hold, Option.map_some, key_of_lastWith? hold]
    by_cases hkey : key a = k
    · rw [if_pos hkey, if_pos hkey.symm]
    · rw [if_neg hkey, if_neg (Ne.symm hkey)]
  next hnew =>
    rw [List.filterMap_append, latest]
    refine congrArg₂ _ (List.filterMap_congr fun k hk => ?_) ?_
    · rw [lastWith?_concat, if_neg]
      rintro rfl
      exact hnew hk
    · simp [lastWith?_concat]

example : latest Prod.fst [("x", 1), ("y", 2), ("x", 3)] = [("x", 3), ("y", 2)] := by decide

end Utterance
