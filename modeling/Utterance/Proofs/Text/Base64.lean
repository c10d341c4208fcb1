import Mathlib.Data.List.Nodup
import Utterance.Text.Base64
import Utterance.Text.Blank

/-!
# Base64 is read back

`decode_encode`: bytes that are written down are read back.  The proof goes by
groups of three bytes, and in a group a byte is recovered from the number that
the digits make up.  Nothing else is read (`decode_eq_some_iff`): in a group that
is accepted the digits are recovered from the bytes, because the bits that no byte
uses are zero.  No digit is a blank (`not_blank_of_mem_encode`), so an encoded text
may be trimmed.
-/

namespace Utterance.Text.Base64

/-! ## Digits -/

/-- The characters one by one, so that they need not be read off a text again and again. -/
theorem alphabet_eq : alphabet =
    ['A', 'B', 'C', 'D', 'E', 'F', 'G', 'H', 'I', 'J', 'K', 'L', 'M', 'N', 'O', 'P', 'Q', 'R', 'S',
      'T', 'U', 'V', 'W', 'X', 'Y', 'Z', 'a', 'b', 'c', 'd', 'e', 'f', 'g', 'h', 'i', 'j', 'k', 'l',
      'm', 'n', 'o', 'p', 'q', 'r', 's', 't', 'u', 'v', 'w', 'x', 'y', 'z', '0', '1', '2', '3', '4',
      '5', '6', '7', '8', '9', '+', '/'] :=
  String.toList_ofList

theorem length_alphabet : alphabet.length = 64 := by
  rw [alphabet_eq]
  rfl

theorem nodup_alphabet : alphabet.Nodup := by
  rw [alphabet_eq]
  exact .of_map Char.toNat (by decide)

theorem mod_lt_length_alphabet (n : Nat) : n % 64 < alphabet.length := by
  rw [length_alphabet]
  exact Nat.mod_lt n (by decide)

theorem getElem_alphabet (n : Nat) (h : n % 64 < alphabet.length) :
    alphabet[n % 64] = digit n := by
  rw [digit, List.getD_eq_getElem?_getD, List.getElem?_eq_getElem h, Option.getD_some]

theorem digit_mem_alphabet (n : Nat) : digit n ∈ alphabet := by
  have hlt := mod_lt_length_alphabet n
  exact getElem_alphabet n hlt ▸ List.getElem_mem hlt

/-- No character stands for two numbers, so the first place that holds the
digit is the place it was taken from. -/
theorem value?_digit (n : Nat) : value? (digit n) = some (n % 64) := by
  have hlt := mod_lt_length_alphabet n
  refine List.idxOf?_eq_some_iff.mpr ⟨hlt, getElem_alphabet n hlt, fun j hj heq => ?_⟩
  have hsame : j = n % 64 :=
    nodup_alphabet.getElem_inj_iff.mp (heq.trans (getElem_alphabet n hlt).symm)
  exact Nat.ne_of_lt hj hsame

theorem digit_not_blank (n : Nat) : isBlank (digit n) = false := by
  have hnone : alphabet.any isBlank = false := by
    rw [alphabet_eq]
    decide
  exact eq_false_of_ne_true (List.any_eq_false.mp hnone _ (digit_mem_alphabet n))

theorem digit_ne_padding (n : Nat) : digit n ≠ '=' := by
  have hnone : '=' ∉ alphabet := by
    rw [alphabet_eq]
    decide
  exact ne_of_mem_of_not_mem (digit_mem_alphabet n) hnone

theorem digit_eq {m n : Nat} (h : m % 64 = n % 64) : digit m = digit n := by
  rw [digit, digit, h]

theorem value?_eq_some {c : Char} {n : Nat} (h : value? c = some n) : n < 64 ∧ digit n = c := by
  obtain ⟨hn, hc, -⟩ := List.idxOf?_eq_some_iff.mp h
  have hlt : n < 64 := length_alphabet ▸ hn
  have hmod := getElem_alphabet n (mod_lt_length_alphabet n)
  simp only [Nat.mod_eq_of_lt hlt] at hmod
  exact ⟨hlt, hmod ▸ hc⟩

/-! ## Groups -/

theorem byteAt_eq {n shift : Nat} {b : UInt8} (h : n / Nat.pow 2 shift % 256 = b.toNat) :
    byteAt n shift = b := by
  rw [byteAt, h, UInt8.ofNat_toNat]

theorem decode_encode : ∀ bs : List UInt8, decode (encode bs) = some bs
  | [] => rfl
  | [a] => by
      have ha := a.toNat_lt
      have hn : a.toNat * 16 / 64 % 64 * 64 + a.toNat * 16 % 64 = a.toNat * 16 := by omega
      have hbyte : byteAt (a.toNat * 16) 4 = a :=
        byteAt_eq (show a.toNat * 16 / 16 % 256 = a.toNat by omega)
      rw [encode, decode]
      simp only [value?_digit, Option.bind_eq_bind, Option.bind_some, hn]
      rw [if_pos (by simp), hbyte]
  | [a, b] => by
      have ha := a.toNat_lt
      have hb := b.toNat_lt
      generalize hsum : (a.toNat * 256 + b.toNat) * 4 = n
      have hn : (n / 4096 % 64 * 64 + n / 64 % 64) * 64 + n % 64 = n := by omega
      have hfirst : byteAt n 10 = a := byteAt_eq (show n / 1024 % 256 = a.toNat by omega)
      have hsecond : byteAt n 2 = b := byteAt_eq (show n / 4 % 256 = b.toNat by omega)
      have hrest : (n % 4 == 0) = true := beq_iff_eq.mpr (by omega)
      rw [encode, hsum, decode]
      · simp only [value?_digit, Option.bind_eq_bind, Option.bind_some, hn]
        rw [if_pos hrest, hfirst, hsecond]
      · exact fun h => digit_ne_padding n h
  | a :: b :: c :: rest => by
      have ha := a.toNat_lt
      have hb := b.toNat_lt
      have hc := c.toNat_lt
      generalize hsum : (a.toNat * 256 + b.toNat) * 256 + c.toNat = n
      have hn : ((n / 262144 % 64 * 64 + n / 4096 % 64) * 64 + n / 64 % 64) * 64 + n % 64 = n := by
        omega
      have hfirst : byteAt n 16 = a := byteAt_eq (show n / 65536 % 256 = a.toNat by omega)
      have hsecond : byteAt n 8 = b := byteAt_eq (show n / 256 % 256 = b.toNat by omega)
      have hthird : byteAt n 0 = c := byteAt_eq (show n / 1 % 256 = c.toNat by omega)
      rw [encode, hsum, decode]
      · simp only [value?_digit, Option.bind_eq_bind, Option.bind_some, hn, decode_encode rest]
        rw [hfirst, hsecond, hthird]
      · exact fun _ h _ => digit_ne_padding n h
      · exact fun h _ => digit_ne_padding n h

/-! ## What is read -/

theorem toNat_byteAt (n shift : Nat) : (byteAt n shift).toNat = n / Nat.pow 2 shift % 256 := by
  rw [byteAt, UInt8.toNat_ofNat']
  exact Nat.mod_mod _ _

/-- Whatever is read is the encoding of what was read from it. -/
theorem eq_encode_of_decode {cs : List Char} {bs : List UInt8} (h : decode cs = some bs) :
    cs = encode bs := by
  fun_induction decode cs generalizing bs with
  | case1 => cases h; rfl
  | case2 c d =>
      simp only [Option.bind_eq_bind, Option.bind_eq_some_iff] at h
      obtain ⟨x, hx, y, hy, h⟩ := h
      obtain ⟨hx, rfl⟩ := value?_eq_some hx
      obtain ⟨hy, rfl⟩ := value?_eq_some hy
      split at h
      case isFalse => cases h
      case isTrue hzero =>
        cases h
        rw [beq_iff_eq] at hzero
        have ha : (byteAt (x * 64 + y) 4).toNat = (x * 64 + y) / 16 % 256 := toNat_byteAt _ 4
        rw [encode, ha, digit_eq (show (x * 64 + y) / 16 % 256 * 16 / 64 % 64 = x % 64 by omega),
          digit_eq (show (x * 64 + y) / 16 % 256 * 16 % 64 = y % 64 by omega)]
  | case3 c d e =>
      simp only [Option.bind_eq_bind, Option.bind_eq_some_iff] at h
      obtain ⟨x, hx, y, hy, z, hz, h⟩ := h
      obtain ⟨hx, rfl⟩ := value?_eq_some hx
      obtain ⟨hy, rfl⟩ := value?_eq_some hy
      obtain ⟨hz, rfl⟩ := value?_eq_some hz
      split at h
      case isFalse => cases h
      case isTrue hzero =>
        cases h
        rw [beq_iff_eq] at hzero
        generalize hn : (x * 64 + y) * 64 + z = n at *
        have ha : (byteAt n 10).toNat = n / 1024 % 256 := toNat_byteAt n 10
        have hb : (byteAt n 2).toNat = n / 4 % 256 := toNat_byteAt n 2
        have hback : ((byteAt n 10).toNat * 256 + (byteAt n 2).toNat) * 4 = n := by omega
        rw [encode, hback, digit_eq (show n / 4096 % 64 = x % 64 by omega),
          digit_eq (show n / 64 % 64 = y % 64 by omega), digit_eq (show n % 64 = z % 64 by omega)]
  | case4 c d e f rest _ _ ih =>
      simp only [Option.bind_eq_bind, Option.bind_eq_some_iff, Option.some.injEq] at h
      obtain ⟨x, hx, y, hy, z, hz, w, hw, later, hlater, rfl⟩ := h
      obtain ⟨hx, rfl⟩ := value?_eq_some hx
      obtain ⟨hy, rfl⟩ := value?_eq_some hy
      obtain ⟨hz, rfl⟩ := value?_eq_some hz
      obtain ⟨hw, rfl⟩ := value?_eq_some hw
      generalize hn : ((x * 64 + y) * 64 + z) * 64 + w = n at *
      have ha : (byteAt n 16).toNat = n / 65536 % 256 := toNat_byteAt n 16
      have hb : (byteAt n 8).toNat = n / 256 % 256 := toNat_byteAt n 8
      have hc : (byteAt n 0).toNat = n / 1 % 256 := toNat_byteAt n 0
      have hback : ((byteAt n 16).toNat * 256 + (byteAt n 8).toNat) * 256 + (byteAt n 0).toNat = n := by
        omega
      rw [encode, hback, ← ih hlater, digit_eq (show n / 262144 % 64 = x % 64 by omega),
        digit_eq (show n / 4096 % 64 = y % 64 by omega),
        digit_eq (show n / 64 % 64 = z % 64 by omega), digit_eq (show n % 64 = w % 64 by omega)]
  | case5 => cases h

theorem decode_eq_some_iff {cs : List Char} {bs : List UInt8} :
    decode cs = some bs ↔ cs = encode bs :=
  ⟨eq_encode_of_decode, fun h => h ▸ decode_encode bs⟩

theorem le_length_encode : ∀ bs : List UInt8, bs.length ≤ (encode bs).length
  | [] => Nat.le_refl _
  | [_] => by simp [encode]
  | [_, _] => by simp [encode]
  | _ :: _ :: _ :: rest => by
      have := le_length_encode rest
      simp only [encode, List.length_cons]
      omega

/-! ## Blanks -/

theorem not_blank_of_mem_encode : ∀ {bs : List UInt8} {c : Char}, c ∈ encode bs →
    isBlank c = false
  | [], c, hc => (List.not_mem_nil hc).elim
  | [a], c, hc => by
      simp only [encode, List.mem_cons, List.not_mem_nil, or_false] at hc
      rcases hc with rfl | rfl | rfl | rfl
      exacts [digit_not_blank _, digit_not_blank _, rfl, rfl]
  | [a, b], c, hc => by
      simp only [encode, List.mem_cons, List.not_mem_nil, or_false] at hc
      rcases hc with rfl | rfl | rfl | rfl
      exacts [digit_not_blank _, digit_not_blank _, digit_not_blank _, rfl]
  | a :: b :: d :: rest, c, hc => by
      simp only [encode, List.mem_cons] at hc
      rcases hc with rfl | rfl | rfl | rfl | hc
      case inr.inr.inr.inr => exact not_blank_of_mem_encode hc
      all_goals exact digit_not_blank _

end Utterance.Text.Base64
