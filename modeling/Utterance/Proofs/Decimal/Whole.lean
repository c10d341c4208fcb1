import Utterance.Proofs.Decimal.Positive

/-!
# Whole floating point numbers

A natural number of at most fifty-three bits has one way to be written with a mantissa of just
so many (`whole`).  It is written so, however the mantissa stands that it is rounded from
(`round_whole`), and it comes back when it is put together and taken apart
(`unpack_pack_whole`).  So such numbers are added and compared in floating point as they are
(`ofNat_add_ofNat`, `ofNat_lt_ofNat`, `ofNat_beq_ofNat`).
-/

namespace Utterance.Decimal

open Float.Model (Format UnpackedFloat totalExponent)
open Float.Model.UnpackedFloat
open Float.Model.Format (binary64)

theorem log2_le_of_lt {n : Nat} (hlt : n < 2 ^ 53) : n.log2 ≤ 52 := by
  by_cases hn : n = 0
  · rw [hn]
    decide
  · exact Nat.le_of_lt_succ ((Nat.log2_lt hn).mpr hlt)

/-- Shifted so far the number takes fifty-three bits. -/
theorem mantissa_bounds {n : Nat} (hn : 0 < n) (hlt : n < 2 ^ 53) :
    2 ^ 52 ≤ n * 2 ^ (52 - n.log2) ∧ n * 2 ^ (52 - n.log2) < 2 ^ 53 := by
  have hlog := log2_le_of_lt hlt
  have hpos : 0 < n * 2 ^ (52 - n.log2) := Nat.mul_pos hn (Nat.two_pow_pos _)
  refine (Nat.log2_eq_iff hpos.ne').mp ?_
  rw [log2_mul_two_pow hn]
  omega

/-- The number with its first bit in front of fifty-two others. -/
def whole (n : Nat) : Float.Model.UnpackedFloat :=
  if h : 0 < n then
    .finite .positive (n * 2 ^ (52 - n.log2)) (n.log2 - 52) (Nat.mul_pos h (Nat.two_pow_pos _))
  else .zero .positive

/-- The number behind a sign; zero may have either. -/
def signed (s : Sign) (n : Nat) : Float.Model.UnpackedFloat :=
  if h : 0 < n then
    .finite s (n * 2 ^ (52 - n.log2)) (n.log2 - 52) (Nat.mul_pos h (Nat.two_pow_pos _))
  else .zero s

theorem signed_of_pos {n : Nat} (s : Sign) (hn : 0 < n) : signed s n =
    .finite s (n * 2 ^ (52 - n.log2)) (n.log2 - 52) (Nat.mul_pos hn (Nat.two_pow_pos _)) :=
  dif_pos hn

theorem whole_of_pos {n : Nat} (hn : 0 < n) : whole n =
    .finite .positive (n * 2 ^ (52 - n.log2)) (n.log2 - 52) (Nat.mul_pos hn (Nat.two_pow_pos _)) :=
  signed_of_pos .positive hn

/-! ## Rounding -/

/-- Zeros at the end of a mantissa are shifted out without a trace. -/
theorem shiftRight_mul_two_pow (m k : Nat) :
    ExtendedMantissa.mk (m * 2 ^ k) false false >>> k = ExtendedMantissa.mk m false false := by
  change k.repeat ExtendedMantissa.shiftRightOne _ = _
  induction k generalizing m with
  | zero => simp [Nat.repeat]
  | succ k ih =>
      have hcons : m * 2 ^ (k + 1) = 2 * m * 2 ^ k := by
        rw [Nat.pow_succ]
        ring
      rw [Nat.repeat, hcons, ih]
      simp [ExtendedMantissa.shiftRightOne]

/-- The target of a number with fifty-three bits. -/
theorem targetExponent_mul_two_pow {n : Nat} (hn : 0 < n) (k : Nat) :
    binary64.targetExponent (totalExponent (n * 2 ^ k) (-k)) = n.log2 - 52 := by
  rw [targetExponent_eq, lastExponent, log2_mul_two_pow hn]
  omega

theorem shiftToTargetExponent_mul_two_pow {n k : Nat} (hn : 0 < n) (hlt : n < 2 ^ 53)
    (hk : 52 - n.log2 ≤ k) :
    shiftToTargetExponent binary64 (n * 2 ^ k) (-k) .exact =
      (ExtendedMantissa.mk (n * 2 ^ (52 - n.log2)) false false, (n.log2 : Int) - 52) := by
  have hlog := log2_le_of_lt hlt
  obtain ⟨more, rfl⟩ := Nat.exists_eq_add_of_le hk
  have hshift : ((n.log2 : Int) - 52 - -((52 - n.log2 + more : Nat) : Int)).toNat = more := by omega
  rw [shiftToTargetExponent, targetExponent_mul_two_pow hn, shiftToExponent, hshift, Nat.pow_add,
    ← Nat.mul_assoc]
  simp only [ExtendedMantissa.ofMantissaAndAccuracy, shiftRight_mul_two_pow]
  rw [Prod.mk.injEq]
  exact ⟨rfl, by omega⟩

theorem roundWithAccuracy_signed {n k : Nat} (s : Sign) (hn : 0 < n) (hlt : n < 2 ^ 53)
    (hk : 52 - n.log2 ≤ k) :
    roundWithAccuracy binary64 s (n * 2 ^ k) (-k) .exact = signed s n := by
  have hlog := log2_le_of_lt hlt
  have hround : (ExtendedMantissa.mk (n * 2 ^ (52 - n.log2)) false false).roundedMantissa =
      n * 2 ^ (52 - n.log2) := rfl
  have hexponent : ((n.log2 : Int) - 52) = -((52 - n.log2 : Nat) : Int) := by omega
  have hpos : n * 2 ^ (52 - n.log2) ≠ 0 := (Nat.mul_pos hn (Nat.two_pow_pos _)).ne'
  have hagain := shiftToTargetExponent_mul_two_pow hn hlt (Nat.le_refl (52 - n.log2))
  rw [← hexponent] at hagain
  unfold roundWithAccuracy
  rw [shiftToTargetExponent_mul_two_pow hn hlt hk]
  simp only [hround, hagain]
  rw [dif_neg hpos, signed_of_pos s hn]

/-- However the mantissa stands, the number is rounded to itself. -/
theorem round_whole {n : Nat} (hn : 0 < n) (hlt : n < 2 ^ 53) (k : Nat) :
    UnpackedFloat.round binary64 .positive (n * 2 ^ k) (-k) = whole n := by
  have hlog := log2_le_of_lt hlt
  rw [UnpackedFloat.round, targetExponent_mul_two_pow hn, decreaseExponent]
  simp only
  rw [Nat.shiftLeft_eq, Nat.mul_assoc, ← Nat.pow_add]
  have hexponent : (-(k : Int) - ((-(k : Int) - (n.log2 - 52)).toNat : Nat)) =
      -((k + (-(k : Int) - (n.log2 - 52)).toNat : Nat) : Int) := by omega
  rw [hexponent]
  exact roundWithAccuracy_signed .positive hn hlt (by omega)

theorem normalize_whole {n : Nat} (hlt : n < 2 ^ 53) (k : Nat) :
    UnpackedFloat.normalize binary64 ((n * 2 ^ k : Nat) : Int) (-k) .positive = whole n := by
  by_cases hn : 0 < n
  · have hpos : (0 : Int) < (n * 2 ^ k : Nat) :=
      Int.natCast_pos.mpr (Nat.mul_pos hn (Nat.two_pow_pos k))
    rw [UnpackedFloat.normalize, compare_gt_iff_gt.mpr hpos]
    exact round_whole hn hlt k
  · obtain rfl : n = 0 := Nat.eq_zero_of_not_pos hn
    rw [Nat.zero_mul]
    rfl

/-! ## Numbers as they are kept -/

theorem unpack_pack_signed {n : Nat} (s : Sign) (hlt : n < 2 ^ 53) :
    unpack binary64 (pack binary64 (signed s n)) = signed s n := by
  by_cases hn : 0 < n
  · have hlog := log2_le_of_lt hlt
    obtain ⟨hle, hmantissa⟩ := mantissa_bounds hn hlt
    have hfirst : (n * 2 ^ (52 - n.log2)).log2 = 52 :=
      (Nat.log2_eq_iff (Nat.zero_lt_of_lt hle).ne').mpr ⟨hle, hmantissa⟩
    have hbias : (binary64.exponentBias : Int) = 1023 := rfl
    have hbits : (binary64.mantissaBitsWithoutImplicit : Int) = 52 := rfl
    have hbiased : ((n.log2 : Int) - 52 + 1023 + 52).toNat = n.log2 + 1023 := by omega
    have hfits : ¬ 2 ^ binary64.exponentBits ≤ n.log2 + 1023 + 1 := by
      change ¬ 2048 ≤ n.log2 + 1023 + 1
      omega
    have hpack : pack binary64 (signed s n) = packComponents binary64 s
        (BitVec.ofNat 11 (n.log2 + 1023)) (BitVec.ofNat 52 (n * 2 ^ (52 - n.log2))) := by
      rw [signed_of_pos s hn, pack]
      simp only [hbias, hbits, hbiased, hfirst]
      rw [if_neg hfits]
      exact if_pos rfl
    rw [hpack, unpack_packComponents s hle hmantissa (by omega) (by omega), signed_of_pos s hn]
    exact finite_congr rfl (by omega) _ _
  · obtain rfl : n = 0 := Nat.eq_zero_of_not_pos hn
    cases s <;> rfl

theorem unpack_pack_whole {n : Nat} (hlt : n < 2 ^ 53) :
    unpack binary64 (pack binary64 (whole n)) = whole n := unpack_pack_signed .positive hlt

/-! ## Sums and comparisons -/

theorem add_whole {m n : Nat} (hlt : m + n < 2 ^ 53) :
    add binary64 (whole m) (whole n) = whole (m + n) := by
  by_cases hm : 0 < m
  · by_cases hn : 0 < n
    · have hmlog := log2_le_of_lt (show m < 2 ^ 53 by omega)
      have hnlog := log2_le_of_lt (show n < 2 ^ 53 by omega)
      -- both mantissas are written with the exponent of the smaller number
      obtain ⟨k, hk⟩ : ∃ k : Nat, min ((m.log2 : Int) - 52) (n.log2 - 52) = -(k : Int) :=
        ⟨52 - min m.log2 n.log2, by omega⟩
      have hmk : 52 - m.log2 + ((m.log2 : Int) - 52 - -(k : Int)).toNat = k := by omega
      have hnk : 52 - n.log2 + ((n.log2 : Int) - 52 - -(k : Int)).toNat = k := by omega
      rw [whole_of_pos hm, whole_of_pos hn, add]
      simp only [Sign.apply, decreaseExponent]
      rw [hk, Nat.shiftLeft_eq, Nat.shiftLeft_eq, Nat.mul_assoc, Nat.mul_assoc, ← Nat.pow_add,
        ← Nat.pow_add, hmk, hnk, ← Nat.cast_add, ← Nat.add_mul]
      exact normalize_whole hlt k
    · obtain rfl : n = 0 := Nat.eq_zero_of_not_pos hn
      rw [Nat.add_zero, whole_of_pos hm]
      rfl
  · obtain rfl : m = 0 := Nat.eq_zero_of_not_pos hm
    rw [Nat.zero_add]
    by_cases hn : 0 < n
    · rw [whole_of_pos hn]
      rfl
    · obtain rfl : n = 0 := Nat.eq_zero_of_not_pos hn
      rfl

theorem compare_mul_two_pow (m n k : Nat) : compare (m * 2 ^ k) (n * 2 ^ k) = compare m n := by
  have hpow : 0 < 2 ^ k := Nat.two_pow_pos k
  rcases Nat.lt_trichotomy m n with h | rfl | h
  · rw [compare_lt_iff_lt.mpr h, compare_lt_iff_lt.mpr (Nat.mul_lt_mul_of_pos_right h hpow)]
  · rw [compare_eq_iff_eq.mpr rfl, compare_eq_iff_eq.mpr rfl]
  · rw [compare_gt_iff_gt.mpr h, compare_gt_iff_gt.mpr (Nat.mul_lt_mul_of_pos_right h hpow)]

/-- A number with more bits is larger. -/
theorem lt_of_log2_lt {m n : Nat} (h : m.log2 < n.log2) : m < n := by
  have hn : n ≠ 0 := by
    rintro rfl
    exact Nat.not_lt_zero _ h
  exact Nat.lt_log2_self.trans_le ((Nat.pow_le_pow_right Nat.two_pos h).trans (Nat.log2_self_le hn))

theorem compare_whole (m n : Nat) : (whole m).compare (whole n) = some (compare m n) := by
  by_cases hm : 0 < m
  · by_cases hn : 0 < n
    · rw [whole_of_pos hm, whole_of_pos hn]
      change some ((compare ((m.log2 : Int) - 52) (n.log2 - 52)).then
        (compare (m * 2 ^ (52 - m.log2)) (n * 2 ^ (52 - n.log2)))) = _
      rcases Nat.lt_trichotomy m.log2 n.log2 with h | h | h
      · rw [compare_lt_iff_lt.mpr (by omega), compare_lt_iff_lt.mpr (lt_of_log2_lt h)]
        rfl
      · rw [h, compare_eq_iff_eq.mpr rfl, compare_mul_two_pow]
        rfl
      · rw [compare_gt_iff_gt.mpr (by omega), compare_gt_iff_gt.mpr (lt_of_log2_lt h)]
        rfl
    · obtain rfl : n = 0 := Nat.eq_zero_of_not_pos hn
      rw [whole_of_pos hm, compare_gt_iff_gt.mpr hm]
      rfl
  · obtain rfl : m = 0 := Nat.eq_zero_of_not_pos hm
    by_cases hn : 0 < n
    · rw [whole_of_pos hn, compare_lt_iff_lt.mpr hn]
      rfl
    · obtain rfl : n = 0 := Nat.eq_zero_of_not_pos hn
      rfl

/-! ## Natural numbers in floating point -/

theorem mul_whole_one {n : Nat} (hlt : n < 2 ^ 53) :
    mul binary64 (whole n) (.finite .positive (2 ^ 52) (-52) (by decide)) = whole n := by
  by_cases hn : 0 < n
  · have hexponent : ((n.log2 : Int) - 52 + -52) = -((52 - n.log2 + 52 : Nat) : Int) := by
      have := log2_le_of_lt hlt
      omega
    rw [whole_of_pos hn, mul, hexponent, Nat.mul_assoc, ← Nat.pow_add]
    exact (roundWithAccuracy_signed .positive hn hlt (Nat.le_add_right _ _)).trans (whole_of_pos hn)
  · obtain rfl : n = 0 := Nat.eq_zero_of_not_pos hn
    rfl

theorem ofNat_eq {n : Nat} (hlt : n < 2 ^ 53) : Float.ofNat n = .ofModel (.pack (whole n)) := by
  have hpower : (Float.exactlyRepresentablePowersOfTen[0]).toModel.unpack =
      .finite .positive (2 ^ 52) (-52) (by decide) := rfl
  have hword : n.toUInt64.toNat = n := by
    rw [Nat.toUInt64_eq, UInt64.toNat_ofNat_of_lt' (hlt.trans (by decide))]
  have hfloat : n.toUInt64.toFloat.toModel.unpack = whole n := by
    change unpack binary64 (pack binary64
      (UnpackedFloat.normalize binary64 (n.toUInt64.toNat : Int) 0 .positive)) = _
    have hself := normalize_whole hlt 0
    rw [Nat.pow_zero, Nat.mul_one] at hself
    rw [hword]
    exact (congrArg _ (congrArg _ hself)).trans (unpack_pack_whole hlt)
  change Float.ofScientific n false 0 = _
  unfold Float.ofScientific
  rw [dif_pos ⟨hlt, by decide⟩]
  simp only
  rw [if_neg Bool.false_ne_true]
  change Float.ofModel (.pack (mul binary64 n.toUInt64.toFloat.toModel.unpack
    (Float.exactlyRepresentablePowersOfTen[0]).toModel.unpack)) = _
  rw [hfloat, hpower, mul_whole_one hlt]

theorem unpack_ofNat {n : Nat} (hlt : n < 2 ^ 53) : (Float.ofNat n).toModel.unpack = whole n := by
  rw [ofNat_eq hlt]
  exact unpack_pack_whole hlt

theorem ofNat_add_ofNat {m n : Nat} (hlt : m + n < 2 ^ 53) :
    Float.ofNat m + Float.ofNat n = Float.ofNat (m + n) := by
  rw [ofNat_eq hlt, ← add_whole hlt, ← unpack_ofNat (n := m) (by omega),
    ← unpack_ofNat (n := n) (by omega)]
  rfl

theorem ofNat_lt_ofNat {m n : Nat} (hm : m < 2 ^ 53) (hn : n < 2 ^ 53) :
    Float.ofNat m < Float.ofNat n ↔ m < n := by
  have hlt : Float.ofNat m < Float.ofNat n ↔ decide (((Float.ofNat m).toModel.unpack.compare
      (Float.ofNat n).toModel.unpack == some .lt) = true) = true := Iff.rfl
  rw [hlt, unpack_ofNat hm, unpack_ofNat hn, compare_whole, decide_eq_true_eq, beq_iff_eq,
    Option.some_inj, compare_lt_iff_lt]

theorem ofNat_beq_ofNat {m n : Nat} (hm : m < 2 ^ 53) (hn : n < 2 ^ 53) :
    (Float.ofNat m == Float.ofNat n) = decide (m = n) := by
  have hbeq : (Float.ofNat m == Float.ofNat n) = ((Float.ofNat m).toModel.unpack.compare
      (Float.ofNat n).toModel.unpack == some .eq) := rfl
  rw [hbeq, unpack_ofNat hm, unpack_ofNat hn, compare_whole, Bool.eq_iff_iff, beq_iff_eq,
    Option.some_inj, compare_eq_iff_eq, decide_eq_true_eq]

end Utterance.Decimal
