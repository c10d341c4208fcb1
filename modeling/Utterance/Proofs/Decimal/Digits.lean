import Mathlib.Data.List.Basic
import Mathlib.Tactic.IntervalCases
import Utterance.Decimal.Read

/-!
# Reading back the digits of a whole number

A natural number is written with the digits `Nat.toDigits 10 n`, and an integer with
a minus sign before them if it is negative.  Reading appends one digit after the
other, and as the number read so far only grows it stays within the bounds if the
whole number does (`readDigits_of_le`, `readDigits_of_ge`).  So an integer of
sixty-four bits is read back from its decimal text (`readInt64_repr`), and different
integers have different texts (`repr_injective`).
-/

namespace Utterance.Decimal

/-- The digits that a natural number is written with. -/
abbrev digitsOf (n : Nat) : List Char := Nat.toDigits 10 n

theorem isDigit_eq (c : Char) : c.isDigit = ('0' ≤ c && c ≤ '9') := rfl

theorem digit?_eq_some {c : Char} (hc : c.isDigit = true) :
    digit? c = some (c.toNat - '0'.toNat) :=
  if_pos (isDigit_eq c ▸ hc)

theorem isSome_digit? (c : Char) : (digit? c).isSome = c.isDigit := by
  by_cases hc : c.isDigit = true
  · rw [digit?_eq_some hc, hc]
    rfl
  · have hnone : digit? c = none := if_neg (isDigit_eq c ▸ hc)
    rw [hnone, Bool.eq_false_iff.mpr hc]
    rfl

theorem isDigit_of_mem_digitsOf {n : Nat} {c : Char} (hc : c ∈ digitsOf n) : c.isDigit = true :=
  Nat.isDigit_of_mem_toDigits (by decide) (by decide) hc

theorem ofDigits_eq {l : List Char} (hl : ∀ c ∈ l, c.isDigit = true) :
    ofDigits l = Nat.ofDigitChars 10 l 0 := by
  rw [ofDigits, Nat.ofDigitChars_eq_foldl]
  refine List.foldl_ext _ _ 0 fun n c hc => ?_
  rw [digit?_eq_some (hl c hc), Option.getD_some, Nat.mul_comm]

@[simp] theorem ofDigits_digitsOf (n : Nat) : ofDigits (digitsOf n) = n := by
  rw [ofDigits_eq fun _ => isDigit_of_mem_digitsOf, Nat.ofDigitChars_ten_toDigits]

/-- Only zero is written with a zero in front. -/
theorem head_digitsOf_ne_zero {n : Nat} (hn : 0 < n) : (digitsOf n).head? ≠ some '0' := by
  induction n using Nat.strongRecOn with
  | ind n ih =>
      unfold digitsOf
      rw [Nat.toDigits_eq_if (by decide)]
      split
      next hlt => interval_cases n <;> decide
      next hle =>
        have hpos : 0 < n / 10 := by omega
        have hlt : n / 10 < n := by omega
        rw [List.head?_append_of_ne_nil _ Nat.toDigits_ne_nil]
        exact ih (n / 10) hlt hpos

/-! ## Within bounds -/

theorem le_ofDigitChars : ∀ (l : List Char) (a : Nat), a ≤ Nat.ofDigitChars 10 l a
  | [], a => Nat.le_of_eq (by rw [Nat.ofDigitChars_nil])
  | c :: cs, a => by
      rw [Nat.ofDigitChars_cons]
      have hle := le_ofDigitChars cs (10 * a + (c.toNat - '0'.toNat))
      omega

theorem readDigits_of_le {low high : Int} (hlow : low ≤ 0) : ∀ {l : List Char} {a : Nat},
    (∀ c ∈ l, c.isDigit = true) → (Nat.ofDigitChars 10 l a : Int) ≤ high →
      readDigits low high false a l = .ok (Nat.ofDigitChars 10 l a)
  | [], a, _, _ => by rw [readDigits, Nat.ofDigitChars_nil]
  | c :: cs, a, hl, hhigh => by
      obtain ⟨hc, hcs⟩ := List.forall_mem_cons.mp hl
      rw [Nat.ofDigitChars_cons] at hhigh ⊢
      have hle := le_ofDigitChars cs (10 * a + (c.toNat - '0'.toNat))
      have hnext : (a : Int) * 10 + ((c.toNat - '0'.toNat : Nat) : Int) =
          ((10 * a + (c.toNat - '0'.toNat) : Nat) : Int) := by push_cast; omega
      simp only [readDigits, digit?_eq_some hc, Bool.false_eq_true, if_false]
      rw [hnext, if_neg (by omega), if_neg (by omega)]
      exact readDigits_of_le hlow hcs hhigh

theorem readDigits_of_ge {low high : Int} (hhigh : 0 ≤ high) : ∀ {l : List Char} {a : Nat},
    (∀ c ∈ l, c.isDigit = true) → low ≤ -(Nat.ofDigitChars 10 l a : Int) →
      readDigits low high true (-(a : Int)) l = .ok (-(Nat.ofDigitChars 10 l a : Int))
  | [], a, _, _ => by rw [readDigits, Nat.ofDigitChars_nil]
  | c :: cs, a, hl, hlow => by
      obtain ⟨hc, hcs⟩ := List.forall_mem_cons.mp hl
      rw [Nat.ofDigitChars_cons] at hlow ⊢
      have hle := le_ofDigitChars cs (10 * a + (c.toNat - '0'.toNat))
      have hnext : -(a : Int) * 10 - ((c.toNat - '0'.toNat : Nat) : Int) =
          -((10 * a + (c.toNat - '0'.toNat) : Nat) : Int) := by push_cast; omega
      simp only [readDigits, digit?_eq_some hc, if_true]
      rw [hnext, if_neg (by omega), if_neg (by omega)]
      exact readDigits_of_ge hhigh hcs hlow

/-! ## Integers -/

/-- The characters that an integer is written with. -/
theorem toList_repr (n : Int) :
    n.repr.toList = if 0 ≤ n then digitsOf n.toNat else '-' :: digitsOf (-n).toNat := by
  rw [Int.repr_eq_if]
  split
  · rw [Nat.toList_repr]
  · rw [String.toList_append, Nat.toList_repr]
    rfl

/-- Digits are read as the number that they stand for, also with zeros in front. -/
theorem readInt_digits {low high : Int} {ds : List Char} (hne : ds ≠ [])
    (hds : ∀ c ∈ ds, c.isDigit = true) (hlow : low ≤ 0) (hhigh : (ofDigits ds : Int) ≤ high) :
    readInt low high ds = .ok (ofDigits ds) := by
  have hdigits : readDigits low high false 0 ds = .ok (ofDigits ds) := by
    rw [ofDigits_eq hds] at hhigh ⊢
    exact readDigits_of_le hlow hds hhigh
  have hhead : ∀ c ∈ ds, c ≠ '+' ∧ c ≠ '-' := fun c hc => by
    have hdigit := hds c hc
    constructor <;> (rintro rfl; exact absurd hdigit (by decide))
  cases ds with
  | nil => exact absurd rfl hne
  | cons c cs =>
      obtain ⟨hplus, hminus⟩ := hhead c List.mem_cons_self
      unfold readInt
      split <;> simp_all

theorem readInt_plus_digits {low high : Int} {ds : List Char} (hne : ds ≠ [])
    (hds : ∀ c ∈ ds, c.isDigit = true) (hlow : low ≤ 0) (hhigh : (ofDigits ds : Int) ≤ high) :
    readInt low high ('+' :: ds) = .ok (ofDigits ds) := by
  have hdigits : readDigits low high false 0 ds = .ok (ofDigits ds) := by
    rw [ofDigits_eq hds] at hhigh ⊢
    exact readDigits_of_le hlow hds hhigh
  cases ds with
  | nil => exact absurd rfl hne
  | cons c cs => exact hdigits

theorem readInt_minus_digits {low high : Int} {ds : List Char} (hne : ds ≠ [])
    (hds : ∀ c ∈ ds, c.isDigit = true) (hlow : low ≤ -(ofDigits ds : Int)) (hhigh : 0 ≤ high) :
    readInt low high ('-' :: ds) = .ok (-(ofDigits ds : Int)) := by
  have hdigits : readDigits low high true 0 ds = .ok (-(ofDigits ds : Int)) := by
    rw [ofDigits_eq hds] at hlow ⊢
    exact readDigits_of_ge hhigh hds hlow
  cases ds with
  | nil => exact absurd rfl hne
  | cons c cs => exact hdigits

theorem readInt_digitsOf {low high : Int} {n : Nat} (hlow : low ≤ 0) (hhigh : (n : Int) ≤ high) :
    readInt low high (digitsOf n) = .ok n := by
  have h := @readInt_digits low high (digitsOf n) Nat.toDigits_ne_nil
    (fun _ => isDigit_of_mem_digitsOf) hlow
  rw [ofDigits_digitsOf] at h
  exact h hhigh

theorem readInt_neg_digitsOf {low high : Int} {n : Nat} (hlow : low ≤ -(n : Int))
    (hhigh : 0 ≤ high) : readInt low high ('-' :: digitsOf n) = .ok (-(n : Int)) := by
  have h := @readInt_minus_digits low high (digitsOf n) Nat.toDigits_ne_nil
    (fun _ => isDigit_of_mem_digitsOf)
  rw [ofDigits_digitsOf] at h
  exact h hlow hhigh

/-- An integer within the bounds is read back from its decimal text. -/
theorem readInt_repr {low high n : Int} (hlow : low ≤ min n 0) (hhigh : max n 0 ≤ high) :
    readInt low high n.repr.toList = .ok n := by
  rw [toList_repr]
  split
  next hpos =>
    rw [readInt_digitsOf (by omega) (by omega), Int.toNat_of_nonneg hpos]
  next hneg =>
    rw [readInt_neg_digitsOf (by omega) (by omega)]
    congr 1
    omega

theorem readInt64_repr {n : Int} (hn : fitsInt64 n = true) : readInt64 n.repr.toList = .ok n := by
  obtain ⟨hmin, hmax⟩ := (Bool.and_eq_true _ _).mp hn
  exact readInt_repr (le_min (of_decide_eq_true hmin) (by decide))
    (max_le (of_decide_eq_true hmax) (by decide))

/-- Different integers have different decimal texts, as these are read back. -/
theorem repr_injective {m n : Int} (h : m.repr = n.repr) : m = n := by
  have hm := @readInt_repr (min (min m n) 0) (max (max m n) 0) m (by omega) (by omega)
  have hn := @readInt_repr (min (min m n) 0) (max (max m n) 0) n (by omega) (by omega)
  rw [h, hn] at hm
  exact (Except.ok.inj hm).symm

end Utterance.Decimal
