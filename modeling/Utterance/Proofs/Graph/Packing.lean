import Utterance.Proofs.Graph.Label

/-!
# Packing and unpacking

A text is packed because of its blanks, and a label is unpacked because of its mark.
The two conditions do not line up: a text that has no blanks and starts with the mark
is left as it is when it is packed, and then read as if it were packed.  What comes
back of it is the text that it encodes, or nothing (`unpack?_pack_eq_some`), and never
the text itself, because a packed text is longer than what is in it (`ne_packed`).

`unpack?_pack_iff` says for every text whether it comes back, and for every two texts
whether they share a label: the packed form of a text with blanks is another text with
the same label, and there is no other such pair.
-/

theorem String.hasBlank_append (s t : String) :
    (s ++ t).hasBlank = (s.hasBlank || t.hasBlank) := by
  simp [hasBlank]

/-- No character takes less than a byte. -/
theorem String.length_le_utf8ByteSize_ofList (cs : List Char) :
    cs.length ≤ (String.ofList cs).utf8ByteSize := by
  induction cs with
  | nil => exact Nat.zero_le _
  | cons c cs ih =>
      have hbytes : (String.ofList [c]).utf8ByteSize = c.utf8Size := by
        rw [← singleton_eq_ofList, utf8ByteSize_singleton]
      have hc := c.utf8Size_pos
      rw [← List.singleton_append, ofList_append, utf8ByteSize_append, hbytes, List.length_append,
        List.length_singleton]
      omega

namespace Utterance

namespace Label

/-! ## The packed form -/

/-- The mark and the bytes of the text behind it. -/
def packed (s : String) : String :=
  packMark ++ String.ofList (Text.Base64.encode s.toUTF8.toList)

theorem pack_of_hasBlank {s : String} (h : s.hasBlank = true) : pack s = packed s :=
  if_pos h

theorem pack_of_not_hasBlank {s : String} (h : s.hasBlank = false) : pack s = s :=
  if_neg (Bool.not_eq_true _ ▸ h)

theorem after?_packed (s : String) :
    (packed s).after? packMark = some (String.ofList (Text.Base64.encode s.toUTF8.toList)) :=
  String.after?_eq_some.mpr rfl

theorem hasBlank_packed (s : String) : (packed s).hasBlank = false := by
  have hpayload : ∀ c ∈ Text.Base64.encode s.toUTF8.toList, Text.isBlank c = false :=
    fun c hc => Text.Base64.not_blank_of_mem_encode hc
  have hmark : packMark.hasBlank = false := by decide
  rw [packed, String.hasBlank_append, hmark, Bool.false_or, String.hasBlank, String.toList_ofList]
  simpa using hpayload

theorem hasBlank_pack (s : String) : (pack s).hasBlank = false := by
  cases h : s.hasBlank with
  | true => rw [pack_of_hasBlank h, hasBlank_packed]
  | false => rw [pack_of_not_hasBlank h, h]

theorem ne_of_hasBlank {s t : String} (hs : s.hasBlank = true) (ht : t.hasBlank = false) :
    s ≠ t := by
  rintro rfl
  rw [hs] at ht
  cases ht

theorem ne_packed_of_hasBlank {s t : String} (h : s.hasBlank = true) : s ≠ packed t :=
  ne_of_hasBlank h (hasBlank_packed t)

theorem ne_packed (s : String) : s ≠ packed s := by
  intro h
  have hpayload := String.length_le_utf8ByteSize_ofList (Text.Base64.encode s.toUTF8.toList)
  have hencode := Text.Base64.le_length_encode s.toUTF8.toList
  have hbytes : s.toUTF8.toList.length = s.utf8ByteSize := by
    rw [toList_eq_data, Array.length_toList]
    exact s.size_toByteArray
  have hmark : packMark.utf8ByteSize = 10 := by decide
  have hsize : s.utf8ByteSize = (packed s).utf8ByteSize := congrArg _ h
  rw [packed, String.utf8ByteSize_append, hmark] at hsize
  omega

theorem fromUTF8?_eq_some {bytes : ByteArray} {s : String} :
    String.fromUTF8? bytes = some s ↔ bytes = s.toUTF8 := by
  refine ⟨fun h => ?_, fun h => h ▸ fromUTF8?_toUTF8 s⟩
  unfold String.fromUTF8? at h
  split at h
  next => cases h; rfl
  next => cases h

/-- A label without blanks is unpacked as a text exactly if it is the text's packed
form, or has no mark and is the text. -/
theorem unpack?_eq_some {label s : String} (h : label.hasBlank = false) :
    unpack? label = some s ↔ label = packed s ∨ label.after? packMark = none ∧ label = s := by
  cases hafter : label.after? packMark with
  | none =>
      have hne : label ≠ packed s := fun heq => by
        rw [heq, after?_packed] at hafter
        cases hafter
      rw [unpack?_of_not_packed hafter, Option.some_inj]
      simp [hne]
  | some payload =>
      obtain rfl := String.after?_eq_some.mp hafter
      have hblank : ∀ c ∈ payload.toList, Text.isBlank c = false := by
        rw [String.hasBlank_append, Bool.or_eq_false_iff] at h
        simpa [String.hasBlank] using h.2
      have hbytes (bytes : List UInt8) :
          ByteArray.mk bytes.toArray = s.toUTF8 ↔ bytes = s.toUTF8.toList := by
        rw [toList_eq_data, ByteArray.ext_iff, ← Array.toList_inj]
      rw [unpack?, hafter]
      simp only [Text.trim_of_not_blank hblank, Option.bind_eq_bind, Option.bind_eq_some_iff,
        fromUTF8?_eq_some, hbytes, exists_eq_right, Text.Base64.decode_eq_some_iff, packed,
        reduceCtorEq, false_and, or_false]
      simp only [← String.toList_inj, String.toList_append, String.toList_ofList,
        List.append_cancel_left_eq]

theorem packed_inj {s t : String} : packed s = packed t ↔ s = t := by
  refine ⟨fun h => ?_, congrArg packed⟩
  have hs : unpack? (packed s) = some s := (unpack?_eq_some (hasBlank_packed s)).mpr (.inl rfl)
  have ht : unpack? (packed t) = some t := (unpack?_eq_some (hasBlank_packed t)).mpr (.inl rfl)
  rw [h, ht, Option.some_inj] at hs
  exact hs.symm

/-! ## What comes back -/

/-- A text comes back, or it has no blanks, starts with the mark and is the packed
form of what comes back. -/
theorem unpack?_pack_eq_some {s r : String} :
    unpack? (pack s) = some r ↔
      (s.hasBlank = true ∨ s.after? packMark = none) ∧ s = r ∨
        s.hasBlank = false ∧ s = packed r := by
  cases h : s.hasBlank with
  | true =>
      rw [pack_of_hasBlank h, unpack?_eq_some (hasBlank_packed s), after?_packed, packed_inj]
      simp
  | false =>
      rw [pack_of_not_hasBlank h, unpack?_eq_some h]
      simp [or_comm]

/-- Two texts with the same label are the same, or one is the packed form of the other. -/
theorem pack_eq_pack_iff {s t : String} :
    pack s = pack t ↔
      s = t ∨ s.hasBlank = true ∧ t = packed s ∨ t.hasBlank = true ∧ s = packed t := by
  cases hs : s.hasBlank with
  | true =>
      rw [pack_of_hasBlank hs]
      cases ht : t.hasBlank with
      | true =>
          rw [pack_of_hasBlank ht, packed_inj]
          simp [ne_packed_of_hasBlank hs, ne_packed_of_hasBlank ht]
      | false =>
          rw [pack_of_not_hasBlank ht]
          simp [ne_of_hasBlank hs ht, eq_comm]
  | false =>
      rw [pack_of_not_hasBlank hs]
      cases ht : t.hasBlank with
      | true =>
          rw [pack_of_hasBlank ht]
          simp [(ne_of_hasBlank ht hs).symm]
      | false =>
          rw [pack_of_not_hasBlank ht]
          simp

/-- A label has no blanks; it is unpacked to the text unless that is a text without
blanks that starts with the mark; and two texts share a label only if one of them is
the packed form of the other. -/
theorem unpack?_pack_iff (s t : String) :
    (pack s).hasBlank = false ∧
      (unpack? (pack s) = some s ↔ s.hasBlank = true ∨ s.after? packMark = none) ∧
      (pack s = pack t ↔
        s = t ∨ s.hasBlank = true ∧ t = packed s ∨ t.hasBlank = true ∧ s = packed t) := by
  refine ⟨hasBlank_pack s, ?_, pack_eq_pack_iff⟩
  rw [unpack?_pack_eq_some]
  simp [ne_packed s]

theorem not_unpack?_pack :
    unpack? (pack "__unpack__!!!") = none ∧ unpack? (pack "__unpack__YSBi") = some "a b" ∧
      pack "__unpack__YSBi" = pack "a b" := by
  decide +kernel

end Label

end Utterance
