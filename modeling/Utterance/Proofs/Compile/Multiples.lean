import Mathlib.Algebra.Order.Group.Nat
import Mathlib.Order.Bounds.Basic
import Utterance.Compile.Count

/-!
# The least common multiple of the counts

The counts are taken into their least common multiple one after the other, with a bound on
every product.  As each step divides first, its product is the least common multiple of the
counts so far (`lcmStep?_eq`), and this divides the one of all counts.  So a step is too large
only if the result is (`foldlM_lcmStep?`): the bound at every step is the bound on the result
(`commonMultiple?_exact`).
-/

namespace Utterance

namespace Count

/-- Euclid's algorithm finds the greatest common divisor. -/
theorem commonDivisor_eq (a b : Nat) : commonDivisor a b = Nat.gcd a b := by
  fun_induction commonDivisor a b with
  | case1 a => exact (Nat.gcd_zero_right a).symm
  | case2 a b _ ih => rw [ih, Nat.gcd_comm a b, Nat.gcd_rec b a, Nat.gcd_comm]

/-- The number, if it takes no more than one hundred and twenty-eight bits. -/
def fit? (n : Nat) : Option Nat := if n < 2 ^ 128 then some n else none

theorem fit?_eq_some_iff {m n : Nat} : fit? n = some m ↔ n = m ∧ m < 2 ^ 128 := by
  rw [fit?]
  split <;> simp <;> omega

theorem fit?_eq_none_iff {n : Nat} : fit? n = none ↔ 2 ^ 128 ≤ n := by
  rw [fit?]
  split <;> simp <;> omega

theorem mul?_eq (a b : Nat) : mul? a b = fit? (a * b) := by
  have hlimit : limit < a * b ↔ ¬ a * b < 2 ^ 128 := by
    have : limit = 2 ^ 128 - 1 := rfl
    omega
  rw [mul?, fit?, if_congr hlimit rfl rfl, ite_not]

end Count

open Utterance.Count

/-! ## Taking in one count -/

/-- Dividing first gives the same product, as the divisor divides the first factor. -/
theorem div_commonDivisor_mul (n c : Nat) : n / commonDivisor n c * c = Nat.lcm n c := by
  rw [commonDivisor_eq, Nat.div_mul_right_comm (Nat.gcd_dvd_left n c)]
  rfl

theorem lcmStep?_eq (n c : Nat) : lcmStep? n c = fit? (Nat.lcm n c) := by
  rw [lcmStep?, mul?_eq, div_commonDivisor_mul]

/-! ## All counts -/

/-- The positive numbers that all counts divide. -/
def commonMultiples (counts : List Nat) : Set Nat := {m | 0 < m ∧ ∀ c ∈ counts, c ∣ m}

theorem foldl_lcm_dvd_iff {counts : List Nat} {n m : Nat} :
    counts.foldl Nat.lcm n ∣ m ↔ n ∣ m ∧ ∀ c ∈ counts, c ∣ m := by
  induction counts generalizing n with
  | nil => simp
  | cons c counts ih => rw [List.foldl_cons, ih, Nat.lcm_dvd_iff, List.forall_mem_cons, and_assoc]

theorem foldl_lcm_pos {counts : List Nat} {n : Nat} (hn : 0 < n) (hpos : ∀ c ∈ counts, 1 ≤ c) :
    0 < counts.foldl Nat.lcm n := by
  induction counts generalizing n with
  | nil => exact hn
  | cons c counts ih =>
      obtain ⟨hc, hcounts⟩ := List.forall_mem_cons.mp hpos
      exact ih (Nat.lcm_pos hn hc) hcounts

/-- The least common multiple only grows when counts are taken in. -/
theorem le_foldl_lcm {counts : List Nat} {n : Nat} (hn : 0 < n) (hpos : ∀ c ∈ counts, 1 ≤ c) :
    n ≤ counts.foldl Nat.lcm n :=
  Nat.le_of_dvd (foldl_lcm_pos hn hpos) (foldl_lcm_dvd_iff.mp (Nat.dvd_refl _)).1

theorem isLeast_foldl_lcm {counts : List Nat} (hpos : ∀ c ∈ counts, 1 ≤ c) :
    IsLeast (commonMultiples counts) (counts.foldl Nat.lcm 1) := by
  refine ⟨⟨foldl_lcm_pos Nat.one_pos hpos, (foldl_lcm_dvd_iff.mp (Nat.dvd_refl _)).2⟩, ?_⟩
  rintro m ⟨hm, hdvd⟩
  exact Nat.le_of_dvd hm (foldl_lcm_dvd_iff.mpr ⟨Nat.one_dvd m, hdvd⟩)

/-- The bound at every step is the bound on the result. -/
theorem foldlM_lcmStep? {counts : List Nat} {n : Nat} (hn : 0 < n) (hlt : n < 2 ^ 128)
    (hpos : ∀ c ∈ counts, 1 ≤ c) :
    counts.foldlM lcmStep? n = fit? (counts.foldl Nat.lcm n) := by
  induction counts generalizing n with
  | nil => exact (fit?_eq_some_iff.mpr ⟨rfl, hlt⟩).symm
  | cons c counts ih =>
      obtain ⟨hc, hcounts⟩ := List.forall_mem_cons.mp hpos
      have hlcm : 0 < Nat.lcm n c := Nat.lcm_pos hn hc
      rw [List.foldlM_cons, List.foldl_cons, lcmStep?_eq]
      by_cases hfits : Nat.lcm n c < 2 ^ 128
      · rw [fit?_eq_some_iff.mpr ⟨rfl, hfits⟩]
        exact ih hlcm hfits hcounts
      · -- the result is a multiple of what does not fit
        have hle : Nat.lcm n c ≤ counts.foldl Nat.lcm (Nat.lcm n c) := le_foldl_lcm hlcm hcounts
        rw [fit?_eq_none_iff.mpr (Nat.not_lt.mp hfits), fit?_eq_none_iff.mpr (by omega)]
        rfl

section

variable {counts before after : List Nat} {n c L : Nat}

theorem commonMultiple?_eq (hpos : ∀ c ∈ counts, 1 ≤ c) :
    commonMultiple? counts = fit? (counts.foldl Nat.lcm 1) :=
  foldlM_lcmStep? Nat.one_pos (by decide) hpos

theorem commonMultiple?_eq_some_iff (hpos : ∀ c ∈ counts, 1 ≤ c) :
    commonMultiple? counts = some L ↔ IsLeast (commonMultiples counts) L ∧ L < 2 ^ 128 := by
  rw [commonMultiple?_eq hpos, fit?_eq_some_iff]
  have hleast := isLeast_foldl_lcm hpos
  exact and_congr_left fun _ => ⟨fun h => h ▸ hleast, hleast.unique⟩

theorem commonMultiple?_eq_none_iff (hpos : ∀ c ∈ counts, 1 ≤ c) :
    commonMultiple? counts = none ↔ ∃ L, IsLeast (commonMultiples counts) L ∧ 2 ^ 128 ≤ L := by
  rw [commonMultiple?_eq hpos, fit?_eq_none_iff]
  have hleast := isLeast_foldl_lcm hpos
  exact ⟨fun h => ⟨_, hleast, h⟩, fun ⟨L, hL, h⟩ => hleast.unique hL ▸ h⟩

/-- What is divided by when a count is taken in is not zero. -/
theorem commonDivisor_pos (hc : 1 ≤ c) (n : Nat) : 0 < commonDivisor n c := by
  rw [commonDivisor_eq]
  exact Nat.gcd_pos_of_pos_right n hc

/-- The products on the way are no larger than the result. -/
theorem exists_product_le (hpos : ∀ d ∈ before ++ c :: after, 1 ≤ d)
    (hL : commonMultiple? (before ++ c :: after) = some L) :
    ∃ n, commonMultiple? before = some n ∧ n / commonDivisor n c * c ≤ L := by
  obtain ⟨hbefore, hrest⟩ := List.forall_mem_append.mp hpos
  obtain ⟨hc, hafter⟩ := List.forall_mem_cons.mp hrest
  rw [commonMultiple?_eq hpos, fit?_eq_some_iff, List.foldl_append, List.foldl_cons] at hL
  obtain ⟨rfl, hfits⟩ := hL
  have hn : 0 < before.foldl Nat.lcm 1 := foldl_lcm_pos Nat.one_pos hbefore
  have hle : Nat.lcm (before.foldl Nat.lcm 1) c ≤
      after.foldl Nat.lcm (Nat.lcm (before.foldl Nat.lcm 1) c) :=
    le_foldl_lcm (Nat.lcm_pos hn hc) hafter
  have hfirst : before.foldl Nat.lcm 1 ≤ Nat.lcm (before.foldl Nat.lcm 1) c :=
    Nat.le_of_dvd (Nat.lcm_pos hn hc) (Nat.dvd_lcm_left _ _)
  refine ⟨before.foldl Nat.lcm 1, ?_, (div_commonDivisor_mul _ c).trans_le hle⟩
  exact (commonMultiple?_eq hbefore).trans (fit?_eq_some_iff.mpr ⟨rfl, by omega⟩)

end

/-- The least common multiple of the counts is found just if it takes no more than one hundred
and twenty-eight bits. -/
theorem commonMultiple?_exact {counts : List Nat} (hpos : ∀ c ∈ counts, 1 ≤ c) :
    (∀ L, commonMultiple? counts = some L ↔ IsLeast (commonMultiples counts) L ∧ L < 2 ^ 128) ∧
    (commonMultiple? counts = none ↔ ∃ L, IsLeast (commonMultiples counts) L ∧ 2 ^ 128 ≤ L) ∧
    (∀ before c after n, counts = before ++ c :: after → commonMultiple? before = some n →
      0 < commonDivisor n c) ∧
    ∀ L, commonMultiple? counts = some L →
      (∀ before c after, counts = before ++ c :: after →
        ∃ n, commonMultiple? before = some n ∧ n / commonDivisor n c * c ≤ L) ∧
      rawWeights (counts.map (max 1)) = counts.map (fun c => Decimal.ofNat (L / c)) ∧
      ∀ c ∈ counts, c ∣ L ∧ c * (L / c) = L := by
  have hclamped : counts.map (max 1) = counts :=
    (List.map_congr_left fun c hc => max_eq_right (hpos c hc)).trans (List.map_id counts)
  refine ⟨fun L => commonMultiple?_eq_some_iff hpos, commonMultiple?_eq_none_iff hpos,
    fun before c after n hcounts _ => ?_, fun L hL => ⟨fun before c after hcounts => ?_, ?_, ?_⟩⟩
  · exact commonDivisor_pos (hpos c (hcounts ▸ List.mem_append_right _ List.mem_cons_self)) n
  · subst hcounts
    exact exists_product_le hpos hL
  · rw [hclamped, rawWeights, hL]
  · have hdvd := ((commonMultiple?_eq_some_iff hpos).mp hL).1.1.2
    exact fun c hc => ⟨hdvd c hc, Nat.mul_div_cancel' (hdvd c hc)⟩

theorem commonMultiple?_fourSixTen : (∀ c ∈ [4, 6, 10], 1 ≤ c) ∧
    commonMultiple? [4, 6, 10] = some 60 ∧
    rawWeights [4, 6, 10] = [Decimal.ofNat 15, Decimal.ofNat 10, Decimal.ofNat 6] := by
  have hpos : ∀ c ∈ [4, 6, 10], 1 ≤ c := by decide
  obtain ⟨hsome, -, -, hweights⟩ := commonMultiple?_exact hpos
  have hleast : IsLeast (commonMultiples [4, 6, 10]) 60 := by
    refine ⟨⟨by decide, by decide⟩, fun m ⟨hm, hdvd⟩ => ?_⟩
    have hfour : 4 ∣ m := hdvd 4 (by decide)
    have hsix : 6 ∣ m := hdvd 6 (by decide)
    have hten : 10 ∣ m := hdvd 10 (by decide)
    omega
  have hsixty := (hsome 60).mpr ⟨hleast, by decide⟩
  exact ⟨hpos, hsixty, (hweights 60 hsixty).2.1⟩

example : commonMultiple? [2 ^ 128 - 2, 2 ^ 128 - 3, 1] = none := by decide +kernel

end Utterance
