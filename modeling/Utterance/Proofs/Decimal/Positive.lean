import Mathlib
import Utterance.Decimal.Nearest

/-!
# Sums of positive floating point numbers

Adding floating point numbers rounds, but a sum of positive numbers does not become
zero.  Taken apart, a positive number is infinite or a mantissa of at most fifty-three
bits with an exponent that the format has, and it has all of these bits unless the
exponent is the lowest one (`InRange`).  Rounding gives such a number, at the exponent
that goes with the mantissa or the next one (`roundWithAccuracy_spec`), and so do putting
one together and taking it apart again (`inRange_unpack_pack`).  So positive numbers
add up to positive ones (`Positive.add`), and a natural number other than zero is
positive (`positive_ofNat`).
-/

namespace Utterance.Decimal

open Float.Model (Format UnpackedFloat totalExponent)
open Float.Model.UnpackedFloat
open Float.Model.Format (binary64)

/-- Positive, and written as the format has it. -/
inductive InRange : Float.Model.UnpackedFloat → Prop where
  | infinity : InRange (.infinity .positive)
  | finite {m : Nat} {e : Int} (hm : 0 < m) :
      m.log2 ≤ 52 → -1074 ≤ e → (m.log2 = 52 ∨ e = -1074) → InRange (.finite .positive m e hm)

/-! ## Rounding -/

theorem shiftLeft_pos {n : Nat} (hn : 0 < n) (k : Nat) : 0 < n <<< k := by
  rw [Nat.shiftLeft_eq]
  exact Nat.mul_pos hn (Nat.two_pow_pos k)

theorem log2_mul_two_pow {n : Nat} (hn : 0 < n) (k : Nat) : (n * 2 ^ k).log2 = n.log2 + k := by
  have hpow : 0 < 2 ^ k := Nat.two_pow_pos k
  rw [Nat.log2_eq_iff (Nat.mul_pos hn hpow).ne']
  refine ⟨?_, ?_⟩
  · rw [Nat.pow_add]
    exact Nat.mul_le_mul_right _ (Nat.log2_self_le hn.ne')
  · rw [Nat.add_right_comm, Nat.pow_add]
    exact Nat.mul_lt_mul_of_pos_right Nat.lt_log2_self hpow

theorem log2_shiftLeft {n : Nat} (hn : 0 < n) (k : Nat) : (n <<< k).log2 = n.log2 + k := by
  rw [Nat.shiftLeft_eq, log2_mul_two_pow hn]

theorem mantissa_shiftRight (em : ExtendedMantissa) (n : Nat) :
    (em >>> n).mantissa = em.mantissa / 2 ^ n := by
  change (n.repeat ExtendedMantissa.shiftRightOne em).mantissa = _
  induction n with
  | zero => simp [Nat.repeat]
  | succ n ih =>
      change (n.repeat ExtendedMantissa.shiftRightOne em).mantissa / 2 = _
      rw [ih, Nat.div_div_eq_div_mul, Nat.pow_succ]

theorem mantissa_ofMantissaAndAccuracy (m : Nat) (a : Accuracy) :
    (ExtendedMantissa.ofMantissaAndAccuracy m a).mantissa = m := by
  cases a with
  | exact => rfl
  | inexact o => cases o <;> rfl

theorem roundedMantissa_bounds (em : ExtendedMantissa) :
    em.mantissa ≤ em.roundedMantissa ∧ em.roundedMantissa ≤ em.mantissa + 1 := by
  obtain ⟨m, r, s⟩ := em
  cases r <;> cases s <;>
    simp [ExtendedMantissa.roundedMantissa, ExtendedMantissa.accuracy,
      Accuracy.roundToNearestEven]
  omega

/-- The exponent at which the last of fifty-three bits stands, unless it is too low. -/
def lastExponent (m : Nat) (e : Int) : Int := max (m.log2 + e - 52) (-1074)

theorem targetExponent_eq (m : Nat) (e : Int) :
    binary64.targetExponent (totalExponent m e) = lastExponent m e := by
  have hmin : binary64.minExponent = -1074 := rfl
  have hbits : (binary64.mantissaBits : Int) = 53 := rfl
  rw [Format.targetExponent, hmin, hbits, totalExponent, lastExponent]
  congr 1
  omega

theorem shiftToTargetExponent_eq (m : Nat) (e : Int) (a : Accuracy) :
    (shiftToTargetExponent binary64 m e a).1.mantissa = m / 2 ^ (lastExponent m e - e).toNat ∧
      (shiftToTargetExponent binary64 m e a).2 = e + (lastExponent m e - e).toNat := by
  rw [shiftToTargetExponent, targetExponent_eq, shiftToExponent, mantissa_shiftRight,
    mantissa_ofMantissaAndAccuracy]
  exact ⟨rfl, rfl⟩

/-- With at most fifty-three bits a mantissa is rounded no further, and with one more it is
halved. -/
theorem shiftToTargetExponent_again {m : Nat} {e : Int} (hle : m ≤ 2 ^ 53) (he : -1074 ≤ e) :
    (m < 2 ^ 53 ∧ (shiftToTargetExponent binary64 m e .exact).1.mantissa = m ∧
        (shiftToTargetExponent binary64 m e .exact).2 = e) ∨
      ((shiftToTargetExponent binary64 m e .exact).1.mantissa = 2 ^ 52 ∧
        (shiftToTargetExponent binary64 m e .exact).2 = e + 1) := by
  obtain ⟨hmantissa, hexponent⟩ := shiftToTargetExponent_eq m e .exact
  rw [hmantissa, hexponent]
  rcases Nat.lt_or_ge m (2 ^ 53) with hlt | hge
  · have hlog : m.log2 ≤ 52 := by
      by_cases hm : m = 0
      · rw [hm]
        decide
      · exact Nat.le_of_lt_succ ((Nat.log2_lt hm).mpr hlt)
    have hshift : (lastExponent m e - e).toNat = 0 := by
      rw [lastExponent]
      omega
    rw [hshift, Nat.pow_zero, Nat.div_one]
    exact .inl ⟨hlt, rfl, Int.add_zero e⟩
  · obtain rfl : m = 2 ^ 53 := Nat.le_antisymm hle hge
    have hshift : (lastExponent (2 ^ 53) e - e).toNat = 1 := by
      rw [lastExponent, Nat.log2_two_pow]
      omega
    rw [hshift]
    exact .inr ⟨rfl, rfl⟩

/-- Shifted to its last exponent a mantissa has at most fifty-three bits, and all of them unless
the exponent is the lowest one; it does not vanish if its first bit stands high enough. -/
theorem shifted_bounds {m k : Nat} {e : Int} (hm : 0 < m) (hhigh : -1074 ≤ m.log2 + e)
    (hlast : e + k = lastExponent m e) : 0 < m / 2 ^ k ∧ (m / 2 ^ k).log2 ≤ 52 ∧
      ((m / 2 ^ k).log2 = 52 ∨ lastExponent m e = -1074) := by
  have hlog : (m / 2 ^ k).log2 = m.log2 - k := by
    rw [Nat.log2_eq_log_two, Nat.log_div_base_pow, Nat.log2_eq_log_two]
  rw [lastExponent] at hlast ⊢
  have hle : k ≤ m.log2 := by omega
  rw [hlog]
  refine ⟨Nat.div_pos ?_ (Nat.two_pow_pos k), by omega, by omega⟩
  exact (Nat.pow_le_pow_right Nat.two_pos hle).trans (Nat.log2_self_le hm.ne')

theorem finite_congr {s : Sign} {m n : Nat} {e f : Int} (hmn : m = n) (hef : e = f) (hm : 0 < m)
    (hn : 0 < n) : Float.Model.UnpackedFloat.finite s m e hm = .finite s n f hn := by
  subst hmn hef
  rfl

/-- A mantissa that stands low enough, with a first bit that stands high enough, is rounded to
a positive number: at its last exponent to no less than what is left of the mantissa there, or
else at a higher one. -/
theorem roundWithAccuracy_spec {m : Nat} {e : Int} (hm : 0 < m) (hhigh : -1074 ≤ m.log2 + e)
    (hlow : e ≤ lastExponent m e) (a : Accuracy) :
    ∃ n f, ∃ hn : 0 < n, roundWithAccuracy binary64 .positive m e a = .finite .positive n f hn ∧
      InRange (.finite .positive n f hn) ∧ (lastExponent m e < f ∨
        f = lastExponent m e ∧ m / 2 ^ (lastExponent m e - e).toNat ≤ n) := by
  obtain ⟨k, hk⟩ : ∃ k, k = (lastExponent m e - e).toNat := ⟨_, rfl⟩
  obtain ⟨hmantissa, hexponent⟩ := shiftToTargetExponent_eq m e a
  rw [← hk] at hmantissa hexponent ⊢
  have hlast : e + k = lastExponent m e := by omega
  rw [hlast] at hexponent
  obtain ⟨hpos, hbits, hfull⟩ := shifted_bounds hm hhigh hlast
  have hlt : m / 2 ^ k < 2 ^ 53 := (Nat.log2_lt hpos.ne').mp (by omega)
  have hmin : -1074 ≤ lastExponent m e := le_max_right _ _
  obtain ⟨hle, hge⟩ := roundedMantissa_bounds (shiftToTargetExponent binary64 m e a).1
  obtain ⟨r, hr⟩ : ∃ r, r = (shiftToTargetExponent binary64 m e a).1.roundedMantissa := ⟨_, rfl⟩
  rw [hmantissa, ← hr] at hle hge
  have hagain := shiftToTargetExponent_again (m := r) (e := lastExponent m e) (by omega) hmin
  unfold roundWithAccuracy
  simp only [← hr, hexponent]
  rcases hagain with ⟨hsmall, hagain, hsame⟩ | ⟨hagain, hnext⟩
  · -- rounding adds no bits, so the first of fifty-three stays the first
    have hlog : r.log2 ≤ 52 := Nat.le_of_lt_succ ((Nat.log2_lt (by omega)).mpr hsmall)
    have hfirst : r.log2 = 52 ∨ lastExponent m e = -1074 := hfull.imp_left fun h =>
      (Nat.log2_eq_iff (by omega)).mpr ⟨(h ▸ Nat.log2_self_le hpos.ne').trans hle, hsmall⟩
    refine ⟨r, lastExponent m e, by omega, ?_, .finite _ hlog hmin hfirst, .inr ⟨rfl, hle⟩⟩
    rw [dif_neg (by omega)]
    exact finite_congr hagain hsame _ _
  · refine ⟨2 ^ 52, lastExponent m e + 1, by decide, ?_, .finite _ (by decide) (by omega)
      (.inl (by decide)), .inl (by omega)⟩
    rw [dif_neg (by omega)]
    exact finite_congr hagain hnext _ _

/-- A positive mantissa is rounded to a positive number: at its last exponent to no less than
what is left of it there, or else at a higher one. -/
theorem round_spec {m : Nat} {e : Int} (hm : 0 < m) (hhigh : -1074 ≤ m.log2 + e) :
    ∃ n f, ∃ hn : 0 < n, UnpackedFloat.round binary64 .positive m e = .finite .positive n f hn ∧
      InRange (.finite .positive n f hn) ∧ (lastExponent m e < f ∨
        f = lastExponent m e ∧ m / 2 ^ (lastExponent m e - e).toNat ≤ n) := by
  obtain ⟨j, hj⟩ : ∃ j, j = (e - lastExponent m e).toNat := ⟨_, rfl⟩
  have hshifted := shiftLeft_pos hm j
  have hlog := log2_shiftLeft hm j
  have hlast : lastExponent (m <<< j) (e - j) = lastExponent m e := by
    rw [lastExponent, lastExponent, hlog]
    congr 1
    omega
  obtain ⟨n, f, hn, hround, hrange, hf⟩ :=
    roundWithAccuracy_spec hshifted (by omega) (e := e - j) (by omega) .exact
  rw [hlast] at hf
  refine ⟨n, f, hn, ?_, hrange, hf.imp_right fun ⟨hf, hle⟩ => ⟨hf, le_trans ?_ hle⟩⟩
  · rw [UnpackedFloat.round, targetExponent_eq, decreaseExponent, ← hj]
    exact hround
  · rcases Nat.eq_zero_or_pos j with rfl | hpos
    · rw [Nat.shiftLeft_zero, Int.natCast_zero, Int.sub_zero]
    · have hleft : (lastExponent m e - e).toNat = 0 := by omega
      have hright : (lastExponent m e - (e - j)).toNat = 0 := by omega
      rw [hleft, hright, Nat.pow_zero, Nat.div_one, Nat.div_one, Nat.shiftLeft_eq]
      exact Nat.le_mul_of_pos_right m (Nat.two_pow_pos j)

theorem inRange_round {m : Nat} {e : Int} (hm : 0 < m) (hhigh : -1074 ≤ m.log2 + e) :
    InRange (UnpackedFloat.round binary64 .positive m e) := by
  obtain ⟨n, f, hn, hround, hrange, -⟩ := round_spec hm hhigh
  rwa [hround]

theorem normalize_of_pos {m : Int} (hm : 0 < m) (e : Int) (s : Sign) :
    UnpackedFloat.normalize binary64 m e s =
      UnpackedFloat.round binary64 .positive m.toNat e := by
  rw [UnpackedFloat.normalize, compare_gt_iff_gt.mpr hm]

theorem inRange_normalize {m : Int} {e : Int} (hm : 0 < m) (hhigh : -1074 ≤ e) (s : Sign) :
    InRange (UnpackedFloat.normalize binary64 m e s) := by
  rw [normalize_of_pos hm]
  exact inRange_round (by omega) (by omega)

/-! ## Numbers as they are kept -/

theorem toNat_implicit_append {m : Nat} (hle : 2 ^ 52 ≤ m) (hlt : m < 2 ^ 53) :
    (1#1 ++ BitVec.ofNat 52 m).toNat = m := by
  have hrest : (BitVec.ofNat 52 m).toNat = m - 2 ^ 52 := by
    rw [BitVec.toNat_ofNat, Nat.mod_eq_sub_mod hle, Nat.mod_eq_of_lt (by omega)]
  have hfirst : (1#1).toNat = 1 := rfl
  rw [BitVec.toNat_append, hrest, hfirst, ← Nat.shiftLeft_add_eq_or_of_lt (by omega),
    Nat.shiftLeft_eq]
  omega

/-- With its first bit and fifty-two others a mantissa is kept as it is. -/
theorem unpack_packComponents {m b : Nat} (s : Sign) (hle : 2 ^ 52 ≤ m) (hlt : m < 2 ^ 53) (hpos : 0 < b)
    (hb : b < 2047) :
    unpack binary64 (packComponents binary64 s (BitVec.ofNat 11 b) (BitVec.ofNat 52 m)) =
      .finite s m (b - 1075) (Nat.zero_lt_of_lt hle) := by
  have hbits : (BitVec.ofNat 11 b).toNat = b := by
    rw [BitVec.toNat_ofNat]
    exact Nat.mod_eq_of_lt (by omega)
  have hlarge : BitVec.ofNat 11 b ≠ -1#11 := fun h => by
    have := congrArg BitVec.toNat h
    rw [hbits] at this
    change b = 2047 at this
    omega
  have hsmall : BitVec.ofNat 11 b ≠ 0#11 := fun h => by
    have := congrArg BitVec.toNat h
    rw [hbits] at this
    change b = 0 at this
    omega
  have hsign : Sign.ofBitVec s.toBitVec = s := by cases s <;> rfl
  unfold unpack
  simp only [unpackMantissa_packComponents, unpackExponent_packComponents,
    unpackSign_packComponents, hsign]
  rw [if_neg hlarge, if_neg hsmall]
  refine finite_congr (toNat_implicit_append hle hlt) ?_ _ _
  rw [hbits]
  rfl

/-- A smaller mantissa is kept as it is if it stands at the lowest exponent. -/
theorem unpack_packComponents_zero {m : Nat} (hm : 0 < m) (hlt : m < 2 ^ 52) :
    unpack binary64 (packComponents binary64 .positive 0#11 (BitVec.ofNat 52 m)) =
      .finite .positive m (-1074) hm := by
  have hbits : (BitVec.ofNat 52 m).toNat = m := by rw [BitVec.toNat_ofNat, Nat.mod_eq_of_lt hlt]
  have hne : BitVec.ofNat 52 m ≠ 0#52 := fun h => by
    have hzero := congrArg BitVec.toNat h
    rw [hbits] at hzero
    exact hm.ne' hzero
  have hsign : Sign.ofBitVec (Sign.toBitVec .positive) = .positive := rfl
  have hsmall : ¬ 0#11 = -1#11 := by decide
  unfold unpack
  simp only [unpackMantissa_packComponents, unpackExponent_packComponents,
    unpackSign_packComponents, hsign]
  rw [if_neg hsmall, if_pos trivial, dif_neg hne]
  exact finite_congr hbits rfl _ _

theorem unpack_packedInfinity :
    unpack binary64 (packedInfinity binary64 .positive) = .infinity .positive := rfl

/-- A number as the format has it is kept as it is, or as infinite if its exponent is too high. -/
theorem unpack_pack_of_inRange {u : Float.Model.UnpackedFloat} (hu : InRange u) :
    unpack binary64 (pack binary64 u) = u ∨
      unpack binary64 (pack binary64 u) = .infinity .positive := by
  cases hu with
  | infinity => exact .inl unpack_packedInfinity
  | @finite m e hm hlog hmin hfull =>
      have hbias : (binary64.exponentBias : Int) = 1023 := rfl
      have hrest : (binary64.mantissaBitsWithoutImplicit : Int) = 52 := rfl
      rw [pack]
      simp only [hbias, hrest]
      split
      next => exact .inr unpack_packedInfinity
      next hfits =>
        have hlt : (e + 1023 + 52).toNat + 1 < 2048 := Nat.not_le.mp hfits
        refine .inl ?_
        split
        next hbits =>
          have hbits : m.log2 + 1 = 53 := hbits
          obtain ⟨hle, hmlt⟩ := (Nat.log2_eq_iff hm.ne').mp (show m.log2 = 52 by omega)
          refine (unpack_packComponents .positive hle hmlt (by omega) (by omega)).trans ?_
          exact finite_congr rfl (by omega) _ _
        next hbits =>
          have hbits : m.log2 + 1 ≠ 53 := hbits
          have hmlt : m < 2 ^ 52 := (Nat.log2_lt hm.ne').mp (by omega)
          obtain rfl : e = -1074 := hfull.resolve_left (by omega)
          exact unpack_packComponents_zero hm hmlt

theorem inRange_unpack_pack {u : Float.Model.UnpackedFloat} (hu : InRange u) :
    InRange (unpack binary64 (pack binary64 u)) := by
  rcases unpack_pack_of_inRange hu with h | h
  · rwa [h]
  · rw [h]
    exact .infinity

/-! ## Positive numbers -/

/-- The number is greater than zero, perhaps infinite. -/
def Positive (x : Float) : Prop := InRange x.toModel.unpack

theorem positive_pack {u : Float.Model.UnpackedFloat} (hu : InRange u) :
    Positive (.ofModel (.pack u)) := inRange_unpack_pack hu

theorem inRange_add {u v : Float.Model.UnpackedFloat} (hu : InRange u) (hv : InRange v) :
    InRange (add binary64 u v) := by
  rcases hu with _ | @⟨m, e, hm, -, he⟩ <;> rcases hv with _ | @⟨n, f, hn, -, hf⟩
  · exact .infinity
  · exact .infinity
  · exact .infinity
  · have hleft := shiftLeft_pos hm (e - min e f).toNat
    have hright := shiftLeft_pos hn (f - min e f).toNat
    refine inRange_normalize ?_ (le_min he hf) .positive
    simp only [Sign.apply]
    omega

theorem add_zero_of_inRange {u : Float.Model.UnpackedFloat} (hu : InRange u) :
    add binary64 u (.zero .positive) = u ∧ add binary64 (.zero .positive) u = u := by
  cases hu <;> exact ⟨rfl, rfl⟩

theorem compare_zero {u : Float.Model.UnpackedFloat} (hu : InRange u) :
    u.compare (.zero .positive) = some .gt ∧
      Float.Model.UnpackedFloat.compare (.zero .positive) u = some .lt := by
  cases hu <;> exact ⟨rfl, rfl⟩

theorem Positive.add {x y : Float} (hx : Positive x) (hy : Positive y) : Positive (x + y) :=
  positive_pack (inRange_add hx hy)

theorem pack_unpack_toModel (x : Float) : Float.ofModel (.pack x.toModel.unpack) = x := by
  obtain ⟨bits, valid⟩ := x
  have hbits : pack binary64 (unpack binary64 bits.toBitVec) = bits.toBitVec :=
    pack_unpack_of_valid valid
  unfold Float.Model.pack Float.Model.unpack
  congr 2
  exact congrArg UInt64.ofBitVec hbits

theorem Positive.add_zero {x : Float} (hx : Positive x) : x + 0 = x :=
  (congrArg (Float.ofModel <| .pack ·) (add_zero_of_inRange hx).1).trans (pack_unpack_toModel x)

theorem Positive.zero_add {x : Float} (hx : Positive x) : 0 + x = x :=
  (congrArg (Float.ofModel <| .pack ·) (add_zero_of_inRange hx).2).trans (pack_unpack_toModel x)

theorem Positive.zero_lt {x : Float} (hx : Positive x) : 0 < x := by
  change decide ((Float.Model.UnpackedFloat.compare (.zero .positive) x.toModel.unpack == some .lt) = true) = true
  rw [(compare_zero hx).2]
  rfl

theorem Positive.not_lt_zero {x : Float} (hx : Positive x) : ¬ x < 0 := by
  change ¬ decide ((x.toModel.unpack.compare (.zero .positive) == some .lt) = true) = true
  rw [(compare_zero hx).1]
  decide

theorem Positive.beq_zero {x : Float} (hx : Positive x) : (x == 0) = false := by
  change (x.toModel.unpack.compare (.zero .positive) == some .eq) = false
  rw [(compare_zero hx).1]
  rfl

theorem Positive.zero_beq {x : Float} (hx : Positive x) : ((0 : Float) == x) = false := by
  change (Float.Model.UnpackedFloat.compare (.zero .positive) x.toModel.unpack == some .eq) = false
  rw [(compare_zero hx).2]
  rfl

/-- A product is positive if its first bit stands high enough, and it is not too short. -/
theorem inRange_mul {m n : Nat} {e f : Int} (hm : 0 < m) (hn : 0 < n)
    (hhigh : -1074 ≤ (m.log2 : Int) + n.log2 + (e + f)) (hlow : 52 ≤ m.log2 + n.log2) :
    InRange (mul binary64 (.finite .positive m e hm) (.finite .positive n f hn)) := by
  have hpos : 0 < m * n := Nat.mul_pos hm hn
  have hlog : m.log2 + n.log2 ≤ (m * n).log2 := by
    rw [Nat.le_log2 hpos.ne', Nat.pow_add]
    exact Nat.mul_le_mul (Nat.log2_self_le hm.ne') (Nat.log2_self_le hn.ne')
  have hlast : e + f ≤ lastExponent (m * n) (e + f) := by
    rw [lastExponent]
    omega
  obtain ⟨k, h, hk, hround, hrange, -⟩ :=
    roundWithAccuracy_spec hpos (e := e + f) (by omega) hlast .exact
  rw [← hround] at hrange
  exact hrange

theorem inRange_mul_one {u : Float.Model.UnpackedFloat} (hu : InRange u) :
    InRange (mul binary64 u (.finite .positive (2 ^ 52) (-52) (by decide))) := by
  have hlog : (2 ^ 52).log2 = 52 := Nat.log2_two_pow
  rcases hu with _ | @⟨m, e, hm, -, he, -⟩
  · exact .infinity
  · exact inRange_mul hm _ (by omega) (by omega)

theorem positive_toFloat {n : UInt64} (hn : 0 < n.toNat) : Positive n.toFloat :=
  positive_pack (inRange_normalize (Int.natCast_pos.mpr hn) (by decide) .positive)

theorem inRange_ofScientific {n : Nat} (hn : 0 < n) :
    InRange (Float.Model.UnpackedFloat.ofScientific binary64 n 0) := by
  have hlarge : ¬ (0 : Int) > 2 ^ binary64.exponentBits := by decide
  have hsmall : ¬ (0 : Int) < -((2 ^ binary64.exponentBits : Int) + n.log2) := by
    have hbits : (2 ^ binary64.exponentBits : Int) = 2048 := rfl
    rw [hbits]
    omega
  have hproduct : ∀ {m : Nat} (hm : 0 < m), 53 ≤ m.log2 →
      InRange (mul binary64 (.finite .positive m (-53) hm)
        (.finite .positive (10 ^ Int.toNat 0) 0 (by decide))) := fun hm hlog =>
    inRange_mul hm _ (by omega) (by omega)
  have hlog : 53 ≤ (n <<< 53).log2 := by rw [log2_shiftLeft hn]; exact Nat.le_add_left 53 _
  unfold Float.Model.UnpackedFloat.ofScientific
  simp only [hn.ne', hlarge, hsmall, dif_neg, if_neg, not_false_eq_true, Int.le_refl, if_pos]
  exact hproduct (shiftLeft_pos hn 53) hlog

/-- A natural number other than zero stays positive in floating point. -/
theorem positive_ofNat {n : Nat} (hn : 0 < n) : Positive (Float.ofNat n) := by
  change Positive (Float.ofScientific n false 0)
  have hpower : (Float.exactlyRepresentablePowersOfTen[0]).toModel.unpack =
      .finite .positive (2 ^ 52) (-52) (by decide) := rfl
  unfold Float.ofScientific
  split
  next hsmall =>
    rw [if_neg Bool.false_ne_true]
    have hlt : n < 2 ^ 64 := hsmall.1.trans (by decide)
    have hfloat : Positive n.toUInt64.toFloat :=
      positive_toFloat (by rwa [Nat.toUInt64_eq, UInt64.toNat_ofNat_of_lt' hlt])
    refine positive_pack (u := mul binary64 _ _) ?_
    rw [hpower]
    exact inRange_mul_one hfloat
  next => exact positive_pack (inRange_ofScientific hn)

theorem positive_tenth : Positive 0.1 := by
  have hunpack : (0.1 : Float).toModel.unpack =
      .finite .positive 7205759403792794 (-56) (by decide) := rfl
  rw [Positive, hunpack]
  exact .finite _ (by decide) (by decide) (.inl (by decide))

end Utterance.Decimal
