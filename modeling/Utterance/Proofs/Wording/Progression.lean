import Mathlib.Algebra.Order.Group.Int
import Mathlib.Tactic.Ring
import Utterance.Proofs.Decimal.Digits
import Utterance.Proofs.Text.Blank
import Utterance.Wording.Number

/-!
# The numbers of a range

The values of a number range are counted up one by one, in integers of sixty-four bits.  The
count ends at the upper bound, or where the next number does not fit any more.  The second way
to end cuts nothing off: a number that does not fit is beyond every upper bound
(`rangeTextsFrom_eq`).  So the values are those that exact arithmetic gives
(`rangeValues_exact`), in whatever notation the three arguments are written.
-/

namespace Utterance

/-! ## Decimal notations -/

namespace Decimal

/-- A decimal notation of an integer: digits, perhaps with zeros in front, and perhaps behind
a sign. -/
inductive Numeral : List Char → Int → Prop
  | digits {ds : List Char} (hne : ds ≠ []) (hds : ∀ c ∈ ds, c.isDigit = true) :
      Numeral ds (ofDigits ds)
  | plus {ds : List Char} (hne : ds ≠ []) (hds : ∀ c ∈ ds, c.isDigit = true) :
      Numeral ('+' :: ds) (ofDigits ds)
  | minus {ds : List Char} (hne : ds ≠ []) (hds : ∀ c ∈ ds, c.isDigit = true) :
      Numeral ('-' :: ds) (-(ofDigits ds : Int))

/-- The text writes the integer in decimals.  There may be blanks around the number. -/
def Writes (s : String) (n : Int) : Prop :=
  ∃ before numeral after, s.toList = before ++ numeral ++ after ∧ Numeral numeral n ∧
    ∀ c ∈ before ++ after, Text.isBlank c = true

namespace Numeral

variable {cs : List Char} {n : Int}

theorem ne_nil (h : Numeral cs n) : cs ≠ [] := by
  cases h with
  | digits hne => exact hne
  | plus => exact List.cons_ne_nil _ _
  | minus => exact List.cons_ne_nil _ _

theorem not_blank (h : Numeral cs n) : ∀ c ∈ cs, Text.isBlank c = false := by
  have hdigits : ∀ {ds : List Char}, (∀ c ∈ ds, c.isDigit = true) →
      ∀ c ∈ ds, Text.isBlank c = false := fun hds c hc => Text.not_isBlank_of_isDigit (hds c hc)
  cases h with
  | digits _ hds => exact hdigits hds
  | plus _ hds => exact List.forall_mem_cons.mpr ⟨by decide, hdigits hds⟩
  | minus _ hds => exact List.forall_mem_cons.mpr ⟨by decide, hdigits hds⟩

theorem readInt {low high : Int} (h : Numeral cs n) (hlow : low ≤ min n 0) (hhigh : max n 0 ≤ high) :
    Decimal.readInt low high cs = .ok n := by
  cases h with
  | digits hne hds => exact readInt_digits hne hds (by omega) (by omega)
  | plus hne hds => exact readInt_plus_digits hne hds (by omega) (by omega)
  | minus hne hds => exact readInt_minus_digits hne hds (by omega) (by omega)

theorem readInt64 (h : Numeral cs n) (hn : fitsInt64 n = true) : Decimal.readInt64 cs = .ok n := by
  obtain ⟨hmin, hmax⟩ := (Bool.and_eq_true _ _).mp hn
  exact h.readInt (le_min (of_decide_eq_true hmin) (by decide))
    (max_le (of_decide_eq_true hmax) (by decide))

end Numeral

/-- The text that is written for an integer writes it. -/
theorem writes_repr (n : Int) : Writes n.repr n := by
  have hdigits (m : Nat) : ∀ c ∈ digitsOf m, c.isDigit = true := fun _ => isDigit_of_mem_digitsOf
  refine ⟨[], n.repr.toList, [], by simp, ?_, by simp⟩
  rw [toList_repr]
  split
  next hnonneg =>
    have h := Numeral.digits Nat.toDigits_ne_nil (hdigits n.toNat)
    rwa [ofDigits_digitsOf, Int.toNat_of_nonneg hnonneg] at h
  next hneg =>
    have h := Numeral.minus Nat.toDigits_ne_nil (hdigits (-n).toNat)
    rwa [ofDigits_digitsOf, Int.toNat_of_nonneg (by omega), Int.neg_neg] at h

theorem Writes.readInt64_trim {s : String} {n : Int} (h : Writes s n) (hn : fitsInt64 n = true) :
    readInt64 (Text.trim s.toList) = .ok n := by
  obtain ⟨before, numeral, after, hs, hnumeral, hblank⟩ := h
  obtain ⟨hbefore, hafter⟩ := List.forall_mem_append.mp hblank
  rw [hs, Text.trim_surrounded hbefore hnumeral.not_blank hnumeral.ne_nil hafter]
  exact hnumeral.readInt64 hn

theorem fits_toInt (n : Int64) : fitsInt64 n.toInt = true := by
  have hle := n.le_toInt
  have hlt := n.toInt_lt
  rw [fitsInt64, Bool.and_eq_true, decide_eq_true_eq, decide_eq_true_eq, minInt64, maxInt64]
  omega

end Decimal

/-! ## Counting up -/

namespace Number

variable {lower upper step n : Int}

/-- How many of the numbers `lower`, `lower + step`, … are at most `upper`. -/
def rangeCount (lower upper step : Int) : Nat :=
  if upper < lower then 0 else ((upper - lower) / step).toNat + 1

/-- The numbers up to the bound come first, as the step is positive. -/
theorem lt_rangeCount_iff (hstep : 0 < step) {i : Nat} :
    i < rangeCount lower upper step ↔ lower + i * step ≤ upper := by
  have hnonneg : 0 ≤ (i : Int) * step := Int.mul_nonneg (Int.natCast_nonneg i) (Int.le_of_lt hstep)
  rw [rangeCount]
  split
  next hlt => omega
  next hle =>
    rw [Nat.lt_succ_iff, Int.le_toNat (Int.ediv_nonneg (by omega) (by omega)),
      Int.le_ediv_iff_mul_le hstep]
    omega

theorem rangeCount_of_lt (h : upper < lower) : rangeCount lower upper step = 0 := if_pos h

theorem rangeCount_of_le (hstep : 0 < step) (hle : lower ≤ upper) :
    rangeCount lower upper step = rangeCount (lower + step) upper step + 1 := by
  refine eq_of_forall_lt_iff fun i => ?_
  cases i with
  | zero => simpa [lt_rangeCount_iff hstep] using hle
  | succ i =>
      have hshift : lower + ((i + 1 : Nat) : Int) * step = lower + step + i * step := by
        push_cast
        ring
      rw [Nat.add_lt_add_iff_right, lt_rangeCount_iff hstep, lt_rangeCount_iff hstep, hshift]

/-- The texts of the numbers `lower`, `lower + step`, … up to `upper`. -/
def progression (lower upper step : Int) : List String :=
  (List.range (rangeCount lower upper step)).map fun (i : Nat) => toString (lower + i * step)

theorem progression_of_lt (h : upper < lower) : progression lower upper step = [] := by
  rw [progression, rangeCount_of_lt h, List.range_zero, List.map_nil]

theorem progression_of_le (hstep : 0 < step) (hle : lower ≤ upper) :
    progression lower upper step = toString lower :: progression (lower + step) upper step := by
  rw [progression, rangeCount_of_le hstep hle, List.range_succ_eq_map, List.map_cons, List.map_map]
  refine congrArg₂ List.cons ?_ (List.map_congr_left fun i _ => ?_)
  · rw [Int.natCast_zero, Int.zero_mul, Int.add_zero]
  · rw [Function.comp_apply, Nat.succ_eq_add_one]
    congr 1
    push_cast
    ring

/-- Counting up in sixty-four bits gives what exact arithmetic gives. -/
theorem rangeTextsFrom_eq (hstep : 0 < step) (hupper : Decimal.fitsInt64 upper = true)
    (hn : Decimal.minInt64 ≤ n) (texts : Array String) :
    (rangeTextsFrom upper step hstep n texts).toList = texts.toList ++ progression n upper step := by
  fun_induction rangeTextsFrom upper step hstep n texts with
  | case1 n texts hle hfits ih =>
      rw [ih (by omega), Array.toList_push, progression_of_le hstep hle, List.append_assoc,
        List.singleton_append]
  | case2 n texts hle hfits =>
      -- the next number is too large, and so beyond the bound
      have hlt : upper < n + step := by
        simp only [Decimal.fitsInt64, Bool.and_eq_true, decide_eq_true_eq] at hfits hupper
        omega
      rw [Array.toList_push, progression_of_le hstep hle, progression_of_lt hlt]
  | case3 n texts hlt => rw [progression_of_lt (Int.not_le.mp hlt), List.append_nil]

theorem rangeTexts_eq (hstep : 0 < step) (hlower : Decimal.fitsInt64 lower = true)
    (hupper : Decimal.fitsInt64 upper = true) :
    rangeTexts lower upper step hstep = progression lower upper step := by
  have hmin : Decimal.minInt64 ≤ lower := of_decide_eq_true ((Bool.and_eq_true _ _).mp hlower).1
  rw [rangeTexts, rangeTextsFrom_eq hstep hupper hmin]
  rfl

/-! ## The values of the slot of ranges -/

variable {a b c : String}

theorem rangeValues_of_writes (hlower : Decimal.fitsInt64 lower = true)
    (hupper : Decimal.fitsInt64 upper = true) (hstep : Decimal.fitsInt64 step = true)
    (ha : Decimal.Writes a lower) (hb : Decimal.Writes b upper) (hc : Decimal.Writes c step) :
    rangeValues [a, b, c] =
      if 0 < step then .ok (progression lower upper step) else .error (.step step) := by
  have hread : [a, b, c].mapM (fun s => (Decimal.readInt64 (Text.trim s.toList)).mapError
      RangeError.malformed) = .ok [lower, upper, step] := by
    simp only [List.mapM_cons, List.mapM_nil, ha.readInt64_trim hlower, hb.readInt64_trim hupper,
      hc.readInt64_trim hstep]
    rfl
  rw [rangeValues, hread]
  change (if h : 0 < step then Except.ok (rangeTexts lower upper step h) else _) = _
  split
  · rw [rangeTexts_eq _ hlower hupper]
  · rfl

theorem mem_progression_iff (hstep : 0 < step) {n : Int} : toString n ∈ progression lower upper step ↔
    ∃ i : Nat, lower + i * step = n ∧ n ≤ upper := by
  rw [progression, List.mem_map]
  constructor
  · rintro ⟨i, hi, htext⟩
    obtain rfl := Decimal.repr_injective htext
    exact ⟨i, rfl, (lt_rangeCount_iff hstep).mp (List.mem_range.mp hi)⟩
  · rintro ⟨i, rfl, hle⟩
    exact ⟨i, List.mem_range.mpr ((lt_rangeCount_iff hstep).mpr hle), rfl⟩

/-- The values of a range are the numbers from the lower bound on, in steps, as long as they do
not pass the upper bound in exact arithmetic.  There is an error just if the step is not
positive. -/
theorem rangeValues_exact {lower upper step : Int64} (ha : Decimal.Writes a lower.toInt)
    (hb : Decimal.Writes b upper.toInt) (hc : Decimal.Writes c step.toInt) :
    ((∃ e, rangeValues [a, b, c] = .error e) ↔ step.toInt ≤ 0) ∧
    (step.toInt ≤ 0 → rangeValues [a, b, c] = .error (.step step.toInt)) ∧
    (0 < step.toInt → ∃ (count : Nat) (values : List String), rangeValues [a, b, c] = .ok values ∧
      values = ((List.range count).map fun (i : Nat) => toString (lower.toInt + i * step.toInt)) ∧
      (∀ i : Nat, i < count ↔ lower.toInt + i * step.toInt ≤ upper.toInt) ∧
      (toString upper.toInt ∈ values ↔ ∃ i : Nat, lower.toInt + i * step.toInt = upper.toInt)) := by
  have hvalues := rangeValues_of_writes (Decimal.fits_toInt lower) (Decimal.fits_toInt upper)
    (Decimal.fits_toInt step) ha hb hc
  have herror (hle : step.toInt ≤ 0) : rangeValues [a, b, c] = .error (.step step.toInt) := by
    rw [hvalues, if_neg (Int.not_lt.mpr hle)]
  refine ⟨⟨fun ⟨e, he⟩ => ?_, fun hle => ⟨_, herror hle⟩⟩, herror, fun hstep => ?_⟩
  · by_contra hstep
    rw [hvalues, if_pos (Int.not_le.mp hstep)] at he
    cases he
  · rw [if_pos hstep] at hvalues
    refine ⟨rangeCount lower.toInt upper.toInt step.toInt, _, hvalues, rfl,
      fun i => lt_rangeCount_iff hstep, (mem_progression_iff hstep).trans ?_⟩
    exact ⟨fun ⟨i, hi, _⟩ => ⟨i, hi⟩, fun ⟨i, hi⟩ => ⟨i, hi, Int.le_refl _⟩⟩

/-- The number after the second one would not fit into sixty-four bits. -/
theorem rangeValues_upToLargest :
    Decimal.Writes "9223372036854775800" (Int64.ofInt 9223372036854775800).toInt ∧
      Decimal.Writes " +9223372036854775807" Int64.maxValue.toInt ∧
      Decimal.Writes "005" (Int64.ofInt 5).toInt ∧
      rangeValues ["9223372036854775800", " +9223372036854775807", "005"] =
        .ok ["9223372036854775800", "9223372036854775805"] := by
  have hlower : Decimal.Writes "9223372036854775800" (Int64.ofInt 9223372036854775800).toInt :=
    ⟨[], "9223372036854775800".toList, [], rfl, .digits (by decide)
      (List.all_eq_true.mp (by decide)), List.all_eq_true.mp rfl⟩
  have hupper : Decimal.Writes " +9223372036854775807" Int64.maxValue.toInt :=
    ⟨[' '], '+' :: "9223372036854775807".toList, [], rfl, .plus (by decide)
      (List.all_eq_true.mp (by decide)), List.all_eq_true.mp (by decide)⟩
  have hstep : Decimal.Writes "005" (Int64.ofInt 5).toInt :=
    ⟨[], "005".toList, [], rfl, .digits (by decide) (List.all_eq_true.mp (by decide)),
      List.all_eq_true.mp rfl⟩
  obtain ⟨-, -, hpositive⟩ := rangeValues_exact hlower hupper hstep
  obtain ⟨count, values, hvalues, rfl, hcount, -⟩ := hpositive (by decide)
  have htwo : count = 2 := by
    have hreached := (hcount 1).mpr (by decide)
    have hpassed := (hcount 2).not.mpr (by decide)
    omega
  rw [htwo] at hvalues
  exact ⟨hlower, hupper, hstep, hvalues⟩

end Number

end Utterance
