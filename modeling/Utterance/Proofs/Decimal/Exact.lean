import Utterance.Proofs.Decimal.Whole

/-!
# What floating point numbers stand for

A finite floating point number stands for a rational one (`value?`).  A natural number of at
most fifty-three bits is rounded to a number that stands for just it (`ofNat_eq_ofNat`), and
times one with a sign it stands for the integer with that sign (`value?_sign_mul`).
-/

namespace Utterance.Decimal

open Float.Model (Format UnpackedFloat totalExponent)
open Float.Model.UnpackedFloat
open Float.Model.Format (binary64)

/-- The number that a finite floating point number stands for. -/
def value? (x : Float) : Option ℚ :=
  match x.toModel.unpack with
  | .zero _ => some 0
  | .finite s m e _ => some (s.apply m * 2 ^ e)
  | _ => none

/-! ## The nearest number -/

theorem unscale_neg (n k : Nat) : unscale n 1 (-(k : Int)) = (n * 2 ^ k, 1) := by
  have hleft : (-(-(k : Int))).toNat = k := by omega
  have hright : (-(k : Int)).toNat = 0 := by omega
  rw [unscale, hleft, hright]
  rfl

theorem lastBit_one {n : Nat} (hn : 0 < n) (hlt : n < 2 ^ 53) : lastBit n 1 = n.log2 - 52 := by
  have hlog := log2_le_of_lt hlt
  have hone : Nat.log2 1 = 0 := rfl
  have hguess : max ((n.log2 : Int) - (0 : Nat) - 53) (-1074) = -((53 - n.log2 : Nat) : Int) := by
    omega
  have hshift : 53 - n.log2 = 52 - n.log2 + 1 := by omega
  -- with one more bit the quotient would be too long
  have hlong : Nat.pow 2 53 ≤ n * 2 ^ (53 - n.log2) / 1 := by
    have hle := (mantissa_bounds hn hlt).1
    rw [Nat.div_one, hshift, Nat.pow_succ, ← Nat.mul_assoc]
    change 2 ^ 52 * 2 ≤ _
    exact Nat.mul_le_mul_right 2 hle
  rw [lastBit, hone]
  simp only [hguess, unscale_neg]
  rw [if_pos hlong]
  omega

/-- With its first bit and fifty-two others a number is not rounded. -/
theorem nearestBits_one {n : Nat} (hn : 0 < n) (hlt : n < 2 ^ 53) :
    nearestBits n 1 = (n.log2 + 1023) * 2 ^ 52 + (n * 2 ^ (52 - n.log2) - 2 ^ 52) := by
  have hlog := log2_le_of_lt hlt
  obtain ⟨hle, hmantissa⟩ := mantissa_bounds hn hlt
  have hexponent : ((n.log2 : Int) - 52) = -((52 - n.log2 : Nat) : Int) := by omega
  have hbiased : (-((52 - n.log2 : Nat) : Int) + 1075).toNat = n.log2 + 1023 := by omega
  have hround (m : Nat) : roundQuotient m 1 = m := by simp [roundQuotient, Nat.mod_one]
  have hpow (k : Nat) : Nat.pow 2 k = 2 ^ k := rfl
  rw [nearestBits, lastBit_one hn hlt, hexponent]
  simp only [unscale_neg, hround, hbiased, hpow]
  rw [if_neg (Nat.not_lt.mpr hle)]
  refine Nat.min_eq_left ?_
  generalize n * 2 ^ (52 - n.log2) = m at hle hmantissa ⊢
  omega

theorem toNat_packComponents (e : BitVec 11) (m : BitVec 52) :
    (packComponents binary64 .positive e m).toNat = e.toNat * 2 ^ 52 + m.toNat := by
  have hm : m.toNat < 2 ^ 52 := m.isLt
  have hsign : Sign.toBitVec .positive = 0#1 := rfl
  rw [packComponents, hsign, BitVec.toNat_append, BitVec.toNat_append, BitVec.toNat_ofNat,
    Nat.zero_mod, Nat.zero_shiftLeft, Nat.zero_or, ← Nat.shiftLeft_add_eq_or_of_lt hm,
    Nat.shiftLeft_eq]

theorem ofNat_eq_ofNat {n : Nat} (hlt : n < 2 ^ 53) : Decimal.ofNat n = Float.ofNat n := by
  by_cases hn : 0 < n
  · have hlog := log2_le_of_lt hlt
    obtain ⟨hle, hmantissa⟩ := mantissa_bounds hn hlt
    have hbits : (UInt64.ofNat (nearestBits n 1)).toBitVec = packComponents binary64 .positive
        (BitVec.ofNat 11 (n.log2 + 1023)) (BitVec.ofNat 52 (n * 2 ^ (52 - n.log2))) := by
      refine BitVec.eq_of_toNat_eq ?_
      have hsmall : nearestBits n 1 < 2 ^ 64 := by
        rw [nearestBits_one hn hlt]
        omega
      rw [toNat_packComponents, BitVec.toNat_ofNat, BitVec.toNat_ofNat, UInt64.toNat_toBitVec,
        UInt64.toNat_ofNat_of_lt' hsmall, nearestBits_one hn hlt]
      omega
    have hunpack : unpack binary64 (UInt64.ofNat (nearestBits n 1)).toBitVec = whole n := by
      rw [hbits, unpack_packComponents .positive hle hmantissa (by omega) (by omega),
        whole_of_pos hn]
      exact finite_congr rfl (by omega) _ _
    have hnonzero : ¬ (n == 0) = true := by simpa using hn.ne'
    rw [ofNat_eq hlt, ← hunpack, Decimal.ofNat, ofFraction, if_neg hnonzero]
    rfl
  · obtain rfl : n = 0 := Nat.eq_zero_of_not_pos hn
    rfl

/-! ## Signs -/

theorem unpack_one : (1 : Float).toModel.unpack = signed .positive 1 := rfl

theorem unpack_neg_one : (-1 : Float).toModel.unpack = signed .negative 1 := rfl

theorem mul_signed_one {n : Nat} (s : Sign) (hlt : n < 2 ^ 53) :
    mul binary64 (signed s 1) (whole n) = signed s n := by
  have hs : s * .positive = s := by cases s <;> rfl
  by_cases hn : 0 < n
  · have hexponent : ((0 : Nat) : Int) - 52 + ((n.log2 : Int) - 52) =
        -((52 - n.log2 + 52 : Nat) : Int) := by
      have := log2_le_of_lt hlt
      omega
    have hmantissa : 1 * 2 ^ (52 - 0) * (n * 2 ^ (52 - n.log2)) = n * 2 ^ (52 - n.log2 + 52) := by
      rw [Nat.pow_add]
      ring
    have hone : Nat.log2 1 = 0 := rfl
    rw [signed_of_pos s Nat.one_pos, whole_of_pos hn, mul, hs, hone, hmantissa, hexponent]
    exact roundWithAccuracy_signed s hn hlt (Nat.le_add_right _ _)
  · obtain rfl : n = 0 := Nat.eq_zero_of_not_pos hn
    cases s <;> rfl

theorem value?_eq_of_unpack {x : Float} {n : Nat} {s : Sign} (hlt : n < 2 ^ 53)
    (hx : x.toModel.unpack = signed s n) : value? x = some (s.apply n) := by
  rw [value?, hx]
  by_cases hn : 0 < n
  · have hexponent : ((n.log2 : Int) - 52) = -((52 - n.log2 : Nat) : Int) := by
      have := log2_le_of_lt hlt
      omega
    rw [signed_of_pos s hn, hexponent]
    cases s <;> simp [Sign.apply]
  · obtain rfl : n = 0 := Nat.eq_zero_of_not_pos hn
    cases s <;> simp [signed, Sign.apply]

theorem unpack_mul_ofNat {x : Float} {n : Nat} {s : Sign} (hlt : n < 2 ^ 53)
    (hx : x.toModel.unpack = signed s 1) :
    (x * Decimal.ofNat n).toModel.unpack = signed s n := by
  have hproduct : (x * Decimal.ofNat n).toModel.unpack = unpack binary64 (pack binary64
    (mul binary64 x.toModel.unpack (Decimal.ofNat n).toModel.unpack)) := rfl
  rw [hproduct, hx, ofNat_eq_ofNat hlt, unpack_ofNat hlt, mul_signed_one s hlt,
    unpack_pack_signed s hlt]

/-- One with a sign gives a whole number its sign, and changes nothing else. -/
theorem value?_sign_mul (n : Int) {m : Nat} (hlt : m < 2 ^ 53) :
    value? ((if n < 0 then -1 else 1) * Decimal.ofNat m) =
      some ((if n < 0 then -(m : Int) else m : Int) : ℚ) := by
  by_cases hneg : n < 0
  · rw [if_pos hneg, if_pos hneg]
    exact value?_eq_of_unpack hlt (unpack_mul_ofNat hlt unpack_neg_one)
  · rw [if_neg hneg, if_neg hneg]
    exact value?_eq_of_unpack hlt (unpack_mul_ofNat hlt unpack_one)

end Utterance.Decimal
