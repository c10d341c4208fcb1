import Mathlib.Data.ENat.Basic
import Utterance.Proofs.Decimal.Positive

/-!
# Sums only grow

Numbers that are not negative are compared by their exponents first and then by their
mantissas, so each has a *place* among all of them (`place`, `lt_iff_place_lt`).  A sum is
rounded, but not below what is added: the exact sum of two positive numbers is no less than
the first, and rounding it at an exponent at which the first can be written does not fall
below it (`place_le_round`).  So what is less than a number is less than every sum with it
(`Positive.lt_add`).
-/

namespace Utterance.Decimal

open Float.Model (Format UnpackedFloat totalExponent)
open Float.Model.UnpackedFloat
open Float.Model.Format (binary64)

/-! ## Places -/

/-- Where a number that is not negative stands among all of them. -/
def place : Float.Model.UnpackedFloat → ℕ∞
  | .zero _ => ((0 : Nat) : ℕ∞)
  | .finite _ m e _ => (((e + 1074).toNat * 2 ^ 53 + m : Nat) : ℕ∞)
  | .infinity _ => ⊤
  | .notANumber => ⊤

/-- Zero or positive, and written as the format has it. -/
def Standard (u : Float.Model.UnpackedFloat) : Prop := u = .zero .positive ∨ InRange u

theorem place_finite_lt {m n : Nat} {e f : Int} (hmlt : m < 2 ^ 53) (hnlt : n < 2 ^ 53)
    (he : -1074 ≤ e) (hf : -1074 ≤ f) :
    (e + 1074).toNat * 2 ^ 53 + m < (f + 1074).toNat * 2 ^ 53 + n ↔ e < f ∨ e = f ∧ m < n := by
  omega

theorem lt_two_pow_of_log2 {m : Nat} (hm : 0 < m) (hlog : m.log2 ≤ 52) : m < 2 ^ 53 :=
  (Nat.log2_lt hm.ne').mp (by omega)

theorem compare_finite_eq_lt_iff {m n : Nat} {e f : Int} (hm : 0 < m) (hn : 0 < n) :
    (UnpackedFloat.finite .positive m e hm).compare (.finite .positive n f hn) = some .lt ↔
      e < f ∨ e = f ∧ m < n := by
  change some ((compare e f).then (compare m n)) = some .lt ↔ _
  rw [Option.some_inj, Ordering.then_eq_lt, compare_lt_iff_lt, compare_eq_iff_eq,
    compare_lt_iff_lt]

/-- Numbers are compared by their places. -/
theorem compare_eq_lt_iff {u v : Float.Model.UnpackedFloat} (hu : Standard u) (hv : Standard v) :
    u.compare v = some .lt ↔ place u < place v := by
  have hpos : ∀ {n : Nat} {f : Int}, 0 < n →
      ((0 : Nat) : ℕ∞) < (((f + 1074).toNat * 2 ^ 53 + n : Nat) : ℕ∞) := fun hn =>
    Nat.cast_lt.mpr (Nat.add_pos_right _ hn)
  rcases hu with rfl | @⟨_⟩ | @⟨m, e, hm, hmlog, he, -⟩ <;>
    rcases hv with rfl | @⟨_⟩ | @⟨n, f, hn, hnlog, hf, -⟩
  case inr.finite.inr.finite =>
    rw [compare_finite_eq_lt_iff, place, place, Nat.cast_lt,
      place_finite_lt (lt_two_pow_of_log2 hm hmlog) (lt_two_pow_of_log2 hn hnlog) he hf]
  case inl.inr.finite => exact iff_of_true rfl (hpos hn)
  case inl.inr.infinity => exact iff_of_true rfl (ENat.natCast_lt_top _)
  case inr.finite.inr.infinity => exact iff_of_true rfl (ENat.natCast_lt_top _)
  case inr.finite.inl => exact iff_of_false nofun (hpos hm).not_gt
  all_goals exact iff_of_false nofun (by simp [place])

/-! ## Rounding -/

/-- A number is not rounded below one that is no more than it. -/
theorem place_le_round {m n : Nat} {e f : Int} {hm : 0 < m}
    (hrange : InRange (.finite .positive m e hm)) (hn : 0 < n) (hf : -1074 ≤ f) (hfe : f ≤ e)
    (hle : m * 2 ^ (e - f).toNat ≤ n) :
    place (.finite .positive m e hm) ≤ place (UnpackedFloat.round binary64 .positive n f) := by
  cases hrange with
  | finite _ hmlog he hfull =>
      obtain ⟨k, g, hk, hround, -, hplace⟩ := round_spec hn (e := f) (by omega)
      have hlog : m.log2 + (e - f).toNat ≤ n.log2 := by
        rw [Nat.le_log2 hn.ne', Nat.pow_add]
        exact (Nat.mul_le_mul_right _ (Nat.log2_self_le hm.ne')).trans hle
      have hlast : e ≤ lastExponent n f := by
        rw [lastExponent]
        omega
      have hmlt := lt_two_pow_of_log2 hm hmlog
      rw [hround, place, place, Nat.cast_le]
      rcases hplace with hlt | ⟨rfl, hleft⟩
      · omega
      · rcases hlast.lt_or_eq with hlt | heq
        · omega
        · -- written at the same exponent, what is left of the mantissa is no less
          rw [← heq] at hleft ⊢
          have hshifted : m ≤ n / 2 ^ (e - f).toNat :=
            (Nat.le_div_iff_mul_le (Nat.two_pow_pos _)).mpr hle
          omega

theorem place_le_add {u v : Float.Model.UnpackedFloat} (hu : InRange u) (hv : InRange v) :
    place u ≤ place (add binary64 u v) := by
  rcases hu with _ | @⟨m, e, hm, hmlog, he, hfull⟩ <;> rcases hv with _ | @⟨n, f, hn, -, hf, -⟩
  case finite.finite =>
    have hleft : 0 < m <<< (e - min e f).toNat := shiftLeft_pos hm _
    have hright : 0 < n <<< (f - min e f).toNat := shiftLeft_pos hn _
    have hsum : (0 : Int) < (m <<< (e - min e f).toNat : Nat) + (n <<< (f - min e f).toNat : Nat) := by
      omega
    have hadd : add binary64 (.finite .positive m e hm) (.finite .positive n f hn) =
        UnpackedFloat.round binary64 .positive
          (m <<< (e - min e f).toNat + n <<< (f - min e f).toNat) (min e f) := by
      refine (normalize_of_pos hsum (min e f) .positive).trans ?_
      rw [← Nat.cast_add, Int.toNat_natCast]
    rw [hadd]
    refine place_le_round (.finite hm hmlog he hfull) (by omega) (le_min he hf) (min_le_left e f) ?_
    rw [← Nat.shiftLeft_eq]
    exact Nat.le_add_right _ _
  all_goals exact le_top

theorem place_le_unpack_pack {u : Float.Model.UnpackedFloat} (hu : InRange u) :
    place u ≤ place (unpack binary64 (pack binary64 u)) := by
  rcases unpack_pack_of_inRange hu with h | h
  · rw [h]
  · rw [h]
    exact le_top

/-! ## Numbers that are not negative -/

theorem standard_of_nonneg {x : Float} (hx : x = 0 ∨ Positive x) : Standard x.toModel.unpack := by
  rcases hx with rfl | hx
  · exact .inl rfl
  · exact .inr hx

theorem lt_iff_place_lt {x y : Float} (hx : x = 0 ∨ Positive x) (hy : y = 0 ∨ Positive y) :
    x < y ↔ place x.toModel.unpack < place y.toModel.unpack := by
  have hlt : x < y ↔ decide ((x.toModel.unpack.compare y.toModel.unpack == some .lt) = true) = true :=
    Iff.rfl
  rw [hlt, decide_eq_true_eq, beq_iff_eq]
  exact compare_eq_lt_iff (standard_of_nonneg hx) (standard_of_nonneg hy)

/-- What is less than a number is less than what it becomes when more is added. -/
theorem Positive.lt_add {c x y : Float} (hx : Positive x) (hc : c = 0 ∨ Positive c)
    (hy : y = 0 ∨ Positive y) (h : c < x) : c < x + y := by
  rcases hy with rfl | hy
  · rwa [hx.add_zero]
  · have hsum : (x + y).toModel.unpack =
        unpack binary64 (pack binary64
          (UnpackedFloat.add binary64 x.toModel.unpack y.toModel.unpack)) := rfl
    have hle : place x.toModel.unpack ≤ place (x + y).toModel.unpack := by
      rw [hsum]
      exact (place_le_add hx hy).trans (place_le_unpack_pack (inRange_add hx hy))
    rw [lt_iff_place_lt hc (.inr (hx.add hy))]
    exact ((lt_iff_place_lt hc (.inr hx)).mp h).trans_le hle

end Utterance.Decimal
