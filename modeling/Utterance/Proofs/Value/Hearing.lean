import Utterance.Proofs.Decimal.Exact
import Utterance.Proofs.Text.Blank
import Utterance.Proofs.Wording.Spelling
import Utterance.Recognition.Basic
import Utterance.Value.Extract

/-!
# Spelled numbers are heard

The speller writes a number from its highest group of three digits down; the reader of numbers takes
the words in one after the other.  What the reader does with the words of a part of a number is said
for any words behind them (`NumberReader.Takes`), by one lemma for each part of the speller.

The speller has a word for every scale up to a quintillion, the reader only up to a billion.  So all
words of a number below a trillion are taken in (`exists_takes_groups`), but of a larger one only
those of its highest group (`exists_hears_of_le`): the reader stops at the name of the scale and
gives what it has.  With the sign and the text around the words this is what is extracted from a
spelled number (`number?_spell`).
-/

namespace Utterance.English

open Decimal (maxNat64)

/-! ## The reader of numbers -/

namespace NumberReader

variable {r : NumberReader} {w : String} {ws ws' more : List String} {total current : Nat}

/-- The reader behind some words that were taken in. -/
def after (r : NumberReader) (ws : List String) (total current : Nat) : NumberReader :=
  ⟨total, current, r.started || !ws.isEmpty, r.used + ws.length⟩

/-- The reader takes in these words, whatever stands behind them, and then has these amounts. -/
def Takes (r : NumberReader) (ws : List String) (total current : Nat) : Prop :=
  ∀ more, r.run (ws ++ more) = (r.after ws total current).run more

theorem Takes.nil (r : NumberReader) : r.Takes [] r.total r.current := fun more => by
  rw [after, List.isEmpty_nil, Bool.not_true, Bool.or_false]
  rfl

theorem Takes.single (h : r.step w = some (some (r.after [w] total current))) :
    r.Takes [w] total current := fun more => by
  rw [List.singleton_append, run, h]
  rfl

theorem after_after {total' current' : Nat} :
    (r.after ws total current).after ws' total' current' = r.after (ws ++ ws') total' current' := by
  have hstarted : (r.started || !ws.isEmpty || !ws'.isEmpty) =
      (r.started || !(ws ++ ws').isEmpty) := by cases ws <;> simp
  rw [after, after, after, hstarted, Nat.add_assoc, ← List.length_append]

theorem Takes.append {total' current' : Nat} (h : r.Takes ws total current)
    (h' : (r.after ws total current).Takes ws' total' current') :
    r.Takes (ws ++ ws') total' current' := fun more => by
  rw [List.append_assoc, h, h', after_after]

theorem Takes.run_eq (h : r.Takes ws total current) :
    r.run ws = some (r.after ws total current) := by
  simpa [run] using h []

/-- The reader stops at a word that does not go on with the number. -/
theorem Takes.run_append_cons (h : r.Takes ws total current)
    (hstop : (r.after ws total current).step w = some none) :
    r.run (ws ++ w :: more) = some (r.after ws total current) := by
  rw [h, run, hstop]
  rfl

@[simp] theorem total_after : (r.after ws total current).total = total := rfl

@[simp] theorem current_after : (r.after ws total current).current = current := rfl

theorem started_after (hws : ws ≠ []) : (r.after ws total current).started = true := by
  simp [after, hws]

theorem takes_small {n : Nat} (hw : smallNumber? w = some n) (harticle : w ≠ "a" ∧ w ≠ "an")
    (hfit : r.current + n ≤ maxNat64) : r.Takes [w] r.total (r.current + n) := by
  have hgoes : ((w == "a" || w == "an") && r.started) = false := by simp [harticle]
  refine Takes.single ?_
  simp only [step, hw, hgoes, fit64?, if_pos hfit]
  simp [after]

/-- Behind other words the group is multiplied. -/
theorem Takes.hundred (h : r.Takes ws total current) (hws : ws ≠ []) (hpos : 0 < current)
    (hfit : current * 100 ≤ maxNat64) : r.Takes (ws ++ ["hundred"]) total (current * 100) := by
  have hsmall : smallNumber? "hundred" = none := by decide
  have hscale : scale? "hundred" = some 100 := by decide
  have hstarted : (r.after ws total current).started = true := started_after hws
  refine h.append (Takes.single ?_)
  simp only [step, hsmall, hscale, hstarted, current_after, Nat.max_eq_left hpos, fit64?,
    if_pos hfit]
  simp [after]

/-- Behind other words the group is moved to the total. -/
theorem Takes.scale {s : Nat} (h : r.Takes ws total current) (hws : ws ≠ []) (hpos : 0 < current)
    (hsmall : smallNumber? w = none) (hscale : scale? w = some s) (hs : s ≠ 100)
    (hfit : total + current * s ≤ maxNat64) : r.Takes (ws ++ [w]) (total + current * s) 0 := by
  have hgroup : current * s ≤ maxNat64 := (Nat.le_add_left _ _).trans hfit
  have hstarted : (r.after ws total current).started = true := started_after hws
  refine h.append (Takes.single ?_)
  simp only [step, hsmall, hscale, hstarted, beq_eq_false_iff_ne.mpr hs, total_after,
    current_after, Nat.max_eq_left hpos, fit64?, if_pos hgroup]
  simp [after, hfit]

/-- Behind other words nothing changes. -/
theorem Takes.and (h : r.Takes ws total current) (hws : ws ≠ []) :
    r.Takes (ws ++ ["and"]) total current := by
  have hsmall : smallNumber? "and" = none := by decide
  have hscale : scale? "and" = none := by decide
  have hstarted : (r.after ws total current).started = true := started_after hws
  refine h.append (Takes.single ?_)
  simp only [step, hsmall, hscale, hstarted]
  simp [after]

theorem step_of_unknown (hsmall : smallNumber? w = none) (hscale : scale? w = none)
    (hand : w ≠ "and") : r.step w = some none := by
  simp only [step, hsmall, hscale]
  simp [hand]

end NumberReader

/-! ## The words of a group -/

theorem smallNumber?_ones : ∀ n < 20, smallNumber? (ones.getD n "") = some n ∧
    ones.getD n "" ≠ "a" ∧ ones.getD n "" ≠ "an" := by decide

theorem smallNumber?_tens : ∀ d < 10, 2 ≤ d → smallNumber? (tens.getD d "") = some (10 * d) ∧
    tens.getD d "" ≠ "a" ∧ tens.getD d "" ≠ "an" := by decide

theorem scale?_scales : ∀ k < 4, 0 < k → smallNumber? (scales.getD k "") = none ∧
    scale? (scales.getD k "") = some (1000 ^ k) ∧ 1000 ^ k ≠ 100 := by decide

/-- The reader does not know the scales from a trillion on. -/
theorem scale?_scales_of_le : ∀ k < 7, 4 ≤ k → smallNumber? (scales.getD k "") = none ∧
    scale? (scales.getD k "") = none ∧ scales.getD k "" ≠ "and" := by decide

variable {r : NumberReader} {n k : Nat}

theorem takes_belowHundred (hn : n < 100) (hfit : r.current + n ≤ maxNat64) :
    r.Takes (belowHundred n) r.total (r.current + n) := by
  rw [belowHundred]
  split
  next hlt =>
    obtain ⟨hone, harticle⟩ := smallNumber?_ones n hlt
    exact NumberReader.takes_small hone harticle hfit
  next hge =>
    obtain ⟨hten, harticle⟩ := smallNumber?_tens (n / 10) (by omega) (by omega)
    have htens := NumberReader.takes_small (r := r) hten harticle (by omega)
    split
    next hpos =>
      obtain ⟨hone, harticle'⟩ := smallNumber?_ones (n % 10) (by omega)
      have hsum : r.current + 10 * (n / 10) + n % 10 = r.current + n := by omega
      refine htens.append ?_
      rw [← hsum] at hfit ⊢
      exact NumberReader.takes_small hone harticle' hfit
    next hzero =>
      have hsum : 10 * (n / 10) = n := by omega
      rwa [hsum] at htens

theorem takes_belowThousand (hn : n < 1000) (hcurrent : r.current = 0) :
    r.Takes (belowThousand n) r.total n := by
  have hmax : maxNat64 = 18446744073709551615 := rfl
  rw [belowThousand]
  split
  next hge =>
    obtain ⟨hone, harticle⟩ := smallNumber?_ones (n / 100) (by omega)
    have hones := NumberReader.takes_small (r := r) hone harticle (by omega)
    rw [hcurrent, Nat.zero_add] at hones
    have hhundreds := hones.hundred (List.cons_ne_nil _ _) (by omega) (by omega)
    split
    next hpos =>
      have hrest := (hhundreds.and (by simp)).append (takes_belowHundred (n := n % 100)
        (Nat.mod_lt _ (by decide)) (by simp only [NumberReader.current_after]; omega))
      simpa [Nat.div_add_mod'] using hrest
    next hzero =>
      have hsum : n / 100 * 100 = n := by omega
      simpa [hsum] using hhundreds
  next hlt =>
    have hrest := takes_belowHundred (r := r) (n := n) (by omega) (by omega)
    rwa [hcurrent, Nat.zero_add] at hrest

theorem belowThousand_ne_nil (n : Nat) : belowThousand n ≠ [] := by
  unfold belowThousand belowHundred
  split_ifs <;> exact List.cons_ne_nil _ _

theorem takes_spellGroup_zero (hn : n < 1000) (hcurrent : r.current = 0) :
    r.Takes (spellGroup 0 n) r.total n := by
  rw [spellGroup]
  by_cases hzero : n = 0
  · rw [if_pos (by simpa using hzero), hzero, ← hcurrent]
    exact NumberReader.Takes.nil r
  · rw [if_neg (by simpa using hzero), if_pos (beq_self_eq_true 0), List.append_nil]
    exact takes_belowThousand hn hcurrent

theorem takes_spellGroup (hk : 0 < k) (hscale : k < 4) (hn : n < 1000) (hcurrent : r.current = 0)
    (hfit : r.total + n * 1000 ^ k ≤ maxNat64) :
    r.Takes (spellGroup k n) (r.total + n * 1000 ^ k) 0 := by
  rw [spellGroup]
  by_cases hzero : n = 0
  · rw [if_pos (by simpa using hzero), hzero, Nat.zero_mul, Nat.add_zero, ← hcurrent]
    exact NumberReader.Takes.nil r
  · obtain ⟨hsmall, hname, hne⟩ := scale?_scales k hscale hk
    rw [if_neg (by simpa using hzero), if_neg (by simpa using hk.ne')]
    exact (takes_belowThousand hn hcurrent).scale (belowThousand_ne_nil n) (Nat.pos_of_ne_zero hzero)
      hsmall hname hne hfit

/-! ## All groups -/

/-- The groups above the lowest one are taken in from the highest down. -/
theorem takes_spellGroups {gs : List Nat} (hgs : ∀ n ∈ gs, n < 1000) (hk : 0 < k)
    (hscale : k + gs.length ≤ 4) (hcurrent : r.current = 0)
    (hfit : r.total + weighed k gs ≤ maxNat64) :
    r.Takes (spellGroups k gs) (r.total + weighed k gs) 0 := by
  induction gs generalizing k with
  | nil =>
      rw [spellGroups, weighed, Nat.add_zero, ← hcurrent]
      exact NumberReader.Takes.nil r
  | cons n rest ih =>
      rw [List.length_cons] at hscale
      obtain ⟨hn, hrest⟩ := List.forall_mem_cons.mp hgs
      rw [weighed, Nat.add_comm (n * 1000 ^ k), ← Nat.add_assoc] at hfit ⊢
      rw [spellGroups]
      refine (ih hrest (Nat.succ_pos k) (by omega) ((Nat.le_add_right _ _).trans hfit)).append ?_
      exact takes_spellGroup (r := r.after _ _ _) hk (by omega) hn rfl hfit

/-- The groups of a number below a trillion are taken in; the lowest one is never moved to the
total. -/
theorem exists_takes_groups (hne : n ≠ 0) (hn : n < 1000 ^ 4) (htotal : r.total = 0)
    (hcurrent : r.current = 0) :
    ∃ total current, r.Takes (spellGroups 0 (groups n)) total current ∧ total + current = n := by
  have hmax : maxNat64 = 18446744073709551615 := rfl
  have hlength := length_groups_le hn
  have hlt := groups_lt n
  have hweighed := weighed_groups n 0
  rw [groups, dif_neg hne] at hlength hlt hweighed ⊢
  obtain ⟨hlow, hhigh⟩ := List.forall_mem_cons.mp hlt
  rw [List.length_cons] at hlength
  rw [weighed, pow_zero, Nat.mul_one, Nat.mul_one, Nat.zero_add] at hweighed
  have hupper := takes_spellGroups (r := r) (k := 1) hhigh (by decide) (by omega) hcurrent
    (by omega)
  rw [htotal, Nat.zero_add] at hupper
  refine ⟨weighed 1 (groups (n / 1000)), n % 1000, ?_, by omega⟩
  rw [spellGroups]
  exact hupper.append (takes_spellGroup_zero hlow rfl)

/-! ## The highest group -/

theorem spellGroups_concat (k : Nat) (gs : List Nat) (n : Nat) :
    spellGroups k (gs ++ [n]) = spellGroup (k + gs.length) n ++ spellGroups k gs := by
  induction gs generalizing k with
  | nil => rw [List.nil_append, spellGroups, spellGroups, List.length_nil, List.append_nil]; rfl
  | cons m rest ih =>
      rw [List.cons_append, spellGroups, spellGroups, ih, List.length_cons, List.append_assoc,
        Nat.add_assoc, Nat.add_comm 1]

/-- The highest group is what is left without as many thousands as go into the number. -/
theorem exists_groups_eq_concat (hne : n ≠ 0) : ∃ lower,
    groups n = lower ++ [n / 1000 ^ Nat.log 1000 n] ∧ lower.length = Nat.log 1000 n := by
  induction n using groups.induct with
  | case1 => exact absurd rfl hne
  | case2 n hn ih =>
      rw [groups, dif_neg hn]
      by_cases hlt : n < 1000
      · rw [Nat.log_of_lt hlt, Nat.div_eq_of_lt hlt, Nat.mod_eq_of_lt hlt, groups, dif_pos rfl]
        exact ⟨[], by simp, rfl⟩
      · have hle : 1000 ≤ n := Nat.le_of_not_lt hlt
        obtain ⟨lower, hlower, hlength⟩ := ih (by omega)
        refine ⟨n % 1000 :: lower, ?_, ?_⟩
        · rw [hlower, Nat.log_of_one_lt_of_le (by decide) hle, pow_succ', Nat.div_div_eq_div_mul]
          rfl
        · rw [List.length_cons, hlength, Nat.log_of_one_lt_of_le (by decide) hle]

theorem div_pow_log_lt (n : Nat) : n / 1000 ^ Nat.log 1000 n < 1000 := by
  refine (Nat.div_lt_iff_lt_mul (Nat.pow_pos (by decide))).mpr ?_
  rw [← pow_succ']
  exact Nat.lt_pow_succ_log_self (by decide) n

/-- The words for a number begin with its highest group. -/
theorem exists_spellGroups_eq (hne : n ≠ 0) : ∃ lower : List String,
    spellGroups 0 (groups n) = belowThousand (n / 1000 ^ Nat.log 1000 n) ++
      ((if Nat.log 1000 n == 0 then [] else [scales.getD (Nat.log 1000 n) ""]) ++ lower) := by
  obtain ⟨lower, hgroups, hlength⟩ := exists_groups_eq_concat hne
  have htop : n / 1000 ^ Nat.log 1000 n ≠ 0 :=
    (Nat.div_pos (Nat.pow_log_le_self 1000 hne) (Nat.pow_pos (by decide))).ne'
  refine ⟨spellGroups 0 lower, ?_⟩
  rw [hgroups, spellGroups_concat, Nat.zero_add, hlength, spellGroup,
    if_neg (by simpa using htop), List.append_assoc]

/-! ## Numbers without sign -/

/-- What the reader makes of the words for a number: all of it below a trillion, and its highest
group else. -/
def heard (n : Nat) : Nat := if n < 1000 ^ 4 then n else n / 1000 ^ Nat.log 1000 n

theorem heard_eq_self_iff : heard n = n ↔ n < 1000 ^ 4 := by
  rw [heard]
  split
  next hlt => exact iff_of_true rfl hlt
  next hge =>
    have hlog : Nat.log 1000 n ≠ 0 := (Nat.log_pos (by decide) (by omega)).ne'
    exact iff_of_false (Nat.div_lt_self (by omega) (Nat.one_lt_pow hlog (by decide))).ne hge

theorem heard_lt (n : Nat) : heard n < 1000 ^ 4 := by
  have hlt := div_pow_log_lt n
  rw [heard]
  split <;> omega

/-- Where a reader stands that was given the words for a number. -/
structure Hears (r : NumberReader) (ws : List String) (n : Nat) : Prop where
  run_eq : NumberReader.run {} ws = some r
  started : r.started = true
  sum_eq : r.total + r.current = heard n
  /-- Words are left over from a trillion on. -/
  used_eq_iff : r.used = ws.length ↔ n < 1000 ^ 4

/-- Words that are all taken in. -/
theorem NumberReader.Takes.hears {ws : List String} {total current : Nat} (hn : n < 1000 ^ 4)
    (h : NumberReader.Takes {} ws total current) (hne : ws ≠ []) (hsum : total + current = n) :
    Hears (NumberReader.after {} ws total current) ws n where
  run_eq := h.run_eq
  started := NumberReader.started_after hne
  sum_eq := by
    rw [heard_eq_self_iff.mpr hn, ← hsum]
    rfl
  used_eq_iff := iff_of_true (Nat.zero_add _) hn

/-- The words of the highest group are taken in, and the name of its scale is not. -/
theorem exists_hears_of_le (hle : 1000 ^ 4 ≤ n) (hn : n < 1000 ^ 7) :
    ∃ r, Hears r (spellGroups 0 (groups n)) n := by
  obtain ⟨lower, hwords⟩ := exists_spellGroups_eq (n := n) (by omega)
  have hlog : 4 ≤ Nat.log 1000 n := Nat.le_log_of_pow_le (by decide) hle
  obtain ⟨hsmall, hname, hand⟩ :=
    scale?_scales_of_le _ (Nat.log_lt_of_lt_pow (by omega) hn) hlog
  have htop := takes_belowThousand (r := {}) (div_pow_log_lt n) rfl
  rw [hwords, if_neg (by simp; omega), List.singleton_append]
  exact ⟨_, {
    run_eq := htop.run_append_cons (NumberReader.step_of_unknown hsmall hname hand)
    started := NumberReader.started_after (belowThousand_ne_nil _)
    sum_eq := by
      rw [heard, if_neg (by omega)]
      exact Nat.zero_add _
    used_eq_iff := by
      refine iff_of_false ?_ (by omega)
      simp [NumberReader.after] }⟩

/-- The words for a number without its sign are heard. -/
theorem exists_hears (hne : n ≠ 0) (hn : n < 1000 ^ 7) :
    ∃ r, Hears r (spellGroups 0 (groups n)) n := by
  by_cases hlt : n < 1000 ^ 4
  · obtain ⟨total, current, htakes, hsum⟩ := exists_takes_groups (r := {}) hne hlt rfl rfl
    obtain ⟨lower, hwords⟩ := exists_spellGroups_eq hne
    have hwords : spellGroups 0 (groups n) ≠ [] := by simp [hwords, belowThousand_ne_nil]
    exact ⟨_, htakes.hears hlt hwords hsum⟩
  · exact exists_hears_of_le (Nat.le_of_not_lt hlt) hn

theorem hears_zero : ∃ r, Hears r [ones.getD 0 ""] 0 := by
  obtain ⟨hzero, harticle⟩ := smallNumber?_ones 0 (by decide)
  have htakes := NumberReader.takes_small (r := {}) hzero harticle (Nat.zero_le _)
  exact ⟨_, htakes.hears (by decide) (List.cons_ne_nil _ _) rfl⟩

/-! ## Numbers -/

/-- Behind the sign stand the words of the number without it. -/
theorem exists_hears_spell {n : Int} (hn : n.natAbs < 1000 ^ 7) : ∃ ws r,
    spell n = (if n < 0 then ["minus"] else []) ++ ws ∧ Hears r ws n.natAbs := by
  by_cases hzero : n = 0
  · obtain ⟨r, hr⟩ := hears_zero
    subst hzero
    exact ⟨_, r, rfl, hr⟩
  · obtain ⟨r, hr⟩ := exists_hears (Int.natAbs_ne_zero.mpr hzero) hn
    refine ⟨_, r, ?_, hr⟩
    have hnonzero : ¬ (n == 0) = true := by simpa using hzero
    rw [spell, if_neg hnonzero]

/-- No sign is heard as the first word of a number. -/
theorem Hears.not_sign {w : String} {ws : List String} (h : Hears r (w :: ws) n) :
    (w == "minus" || w == "negative") = false := by
  have hstops {w : String} (hsmall : smallNumber? w = none) (hscale : scale? w = none)
      (hand : w ≠ "and") : ¬ Hears r (w :: ws) n := fun h => by
    have hrun := h.run_eq
    rw [NumberReader.run, NumberReader.step_of_unknown hsmall hscale hand] at hrun
    cases hrun
    cases h.started
  rw [Bool.or_eq_false_iff, beq_eq_false_iff_ne, beq_eq_false_iff_ne]
  constructor
  · rintro rfl
    exact hstops (by decide) (by decide) (by decide) h
  · rintro rfl
    exact hstops (by decide) (by decide) (by decide) h

theorem fractionAt_of_not_mem {ws : List String} (h : "point" ∉ ws) : fractionAt ws = [] := by
  unfold fractionAt
  split
  next => exact absurd List.mem_cons_self h
  next => rfl

/-- The number that is heard gets its sign, and behind its words there is no fraction. -/
theorem spokenNumber?_of_hears {n : Int} {ws : List String} {m : Nat} (h : Hears r ws m)
    (hpoint : "point" ∉ ws) :
    spokenNumber? ((if n < 0 then ["minus"] else []) ++ ws) =
      some ((if n < 0 then -1 else 1) * Decimal.ofNat (heard m),
        (if n < 0 then 1 else 0) + r.used) := by
  have hfit : heard m ≤ maxNat64 := (heard_lt m).le.trans (by decide)
  have hfraction := fractionAt_of_not_mem fun hmem => hpoint (List.drop_subset r.used ws hmem)
  by_cases hneg : n < 0
  · simp [hneg, spokenNumber?, h.run_eq, h.started, h.sum_eq, fit64?, hfit, hfraction]
  · cases ws with
    | nil =>
        cases h.run_eq
        cases h.started
    | cons w ws =>
        simp [hneg, spokenNumber?, h.not_sign, h.run_eq, h.started, h.sum_eq, fit64?, hfit,
          hfraction]

/-- What is heard of a number with a sign. -/
def heardInt (n : Int) : Int := if n < 0 then -(heard n.natAbs : Int) else heard n.natAbs

theorem heardInt_eq_self_iff {n : Int} : heardInt n = n ↔ n.natAbs < 1000 ^ 4 := by
  rw [← heard_eq_self_iff, heardInt]
  split <;> omega

/-- Words that are bare are found again in their text. -/
theorem extractWords_spaced {ws : List String}
    (h : ∀ w ∈ ws, Text.IsWord w.toList ∧ bareWord w.toList = w.toList) :
    extractWords (spaced ws) = ws := by
  have hbare : (ws.map String.toList).map bareWord = ws.map String.toList := by
    rw [List.map_map]
    exact List.map_congr_left fun w hw => (h w hw).2
  have hfilter : (ws.map String.toList).filter (!·.isEmpty) = ws.map String.toList :=
    List.filter_eq_self.mpr (List.forall_mem_map.mpr fun w hw => by simpa using (h w hw).1.1)
  have hchars : (spaced ws).toList = [' '].intercalate (ws.map String.toList) :=
    String.toList_intercalate
  rw [extractWords, hchars, Text.words_intercalate_map fun w hw => (h w hw).1, hbare, hfilter,
    Text.map_ofList_map_toList]

theorem bareWord_vocabulary : ∀ entry ∈ vocabulary, Text.IsWord entry.1.toList ∧
    bareWord entry.1.toList = entry.1.toList := by decide +kernel

/-- No word of a number looks like a number in digits, and none starts a fraction. -/
theorem startsNumeral_vocabulary : ∀ entry ∈ vocabulary, startsNumeral entry.1 = false ∧
    entry.1 ≠ "point" := by decide +kernel

theorem numberAt?_spell {n : Int} (hn : n.natAbs < 1000 ^ 7) : ∃ x used,
    numberAt? (spell n) = some (x, used) ∧ Decimal.value? x = some (heardInt n : ℚ) ∧
      (used = (spell n).length ↔ n.natAbs < 1000 ^ 4) := by
  have hwords := forall_mem_spell (P := fun w => startsNumeral w = false ∧ w ≠ "point")
    startsNumeral_vocabulary hn
  obtain ⟨ws, r, hspell, hears⟩ := exists_hears_spell hn
  have hpoint : "point" ∉ ws := fun hmem =>
    (hwords "point" (hspell ▸ List.mem_append_right _ hmem)).2 rfl
  have hspoken : numberAt? (spell n) = spokenNumber? (spell n) := by
    obtain ⟨w, rest, hcons⟩ := List.exists_cons_of_ne_nil (spell_ne_nil hn)
    rw [hcons] at hwords ⊢
    simp [numberAt?, (hwords w List.mem_cons_self).1]
  have hexact : heard n.natAbs < 2 ^ 53 := (heard_lt _).trans (by decide)
  rw [hspoken, hspell, spokenNumber?_of_hears hears hpoint]
  refine ⟨_, _, rfl, Decimal.value?_sign_mul n hexact, ?_⟩
  rw [← hears.used_eq_iff, List.length_append]
  split <;> simp

/-- The text of a spelled number is read from its first word on. -/
theorem number?_spaced_spell {n : Int} (hn : n.natAbs < 1000 ^ 7) (anchor : DateTime) :
    extractWords (spaced (spell n)) = spell n ∧
      (extractor anchor).number? (spaced (spell n)) = (numberAt? (spell n)).map Prod.fst := by
  have hextracted := extractWords_spaced (forall_mem_spell (P := fun w =>
    Text.IsWord w.toList ∧ bareWord w.toList = w.toList) bareWord_vocabulary hn)
  obtain ⟨x, used, hread, -⟩ := numberAt?_spell hn
  obtain ⟨w, rest, hcons⟩ := List.exists_cons_of_ne_nil (spell_ne_nil hn)
  refine ⟨hextracted, ?_⟩
  change firstNumber? (extractWords (spaced (spell n))) = _
  rw [hcons] at hread hextracted ⊢
  rw [hextracted, firstNumber?, hread]
  rfl

/-- The words of every number of sixty-four bits are found in their text, and the number that is
extracted from it is the one that is heard.  It is the number that was spelled, and all of its words
are used, exactly if it is nearer to zero than a trillion. -/
theorem number?_spell (n : Int64) (anchor : DateTime) :
    extractWords (spaced (spell n.toInt)) = spell n.toInt ∧ ∃ x used,
      (extractor anchor).number? (spaced (spell n.toInt)) = some x ∧
      numberAt? (spell n.toInt) = some (x, used) ∧
      Decimal.value? x = some (heardInt n.toInt : ℚ) ∧
      (Decimal.value? x = some (n.toInt : ℚ) ↔ n.toInt.natAbs < 10 ^ 12) ∧
      (used = (spell n.toInt).length ↔ n.toInt.natAbs < 10 ^ 12) := by
  have hn := natAbs_toInt_lt n
  obtain ⟨hextracted, hnumber⟩ := number?_spaced_spell hn anchor
  obtain ⟨x, used, hread, hvalue, hused⟩ := numberAt?_spell hn
  refine ⟨hextracted, x, used, ?_, hread, hvalue, ?_, hused⟩
  · rw [hnumber, hread]
    rfl
  · rw [hvalue, Option.some_inj, Int.cast_inj]
    exact heardInt_eq_self_iff

/-- A trillion is spelled, and heard as one. -/
theorem not_number?_spell : spell (10 ^ 12) = ["one", "trillion"] ∧
    ¬ ∀ (n : Int) (anchor : DateTime), n.natAbs ≤ 2 ^ 53 → ∃ x,
      (extractor anchor).number? (spaced (spell n)) = some x ∧ Decimal.value? x = some (n : ℚ) ∧
        numberAt? (spell n) = some (x, (spell n).length) := by
  refine ⟨by decide +kernel, fun h => ?_⟩
  have hheard : heardInt (10 ^ 12) = 1 := by decide
  obtain ⟨x, -, hvalue, hread⟩ := h (10 ^ 12) default (by decide)
  obtain ⟨y, used, hread', hvalue', -⟩ := numberAt?_spell (n := 10 ^ 12) (by decide)
  obtain ⟨rfl, -⟩ := Prod.mk.inj (Option.some.inj (hread.symm.trans hread'))
  rw [hvalue', hheard, Option.some_inj, Int.cast_inj] at hvalue
  exact absurd hvalue (by decide)

end Utterance.English
