import Utterance.Graph.Label
import Utterance.Proofs.Text.Base64
import Utterance.Proofs.Text.Blank

/-!
# Reading labels back

A control's text is read back as the control (`Control.read?_text`), and no
label without two underscores in front is read as one.  A text that is not
packed already is packed into a token without blanks from which it can be
unpacked again (`Label.unpack?_pack`).
-/

/-! ## Prefixes -/

theorem String.after?_eq_some {s start rest : String} :
    s.after? start = some rest ↔ s = start ++ rest := by
  rw [String.after?, Utterance.Text.dropStart?]
  refine ⟨fun h => ?_, ?_⟩
  · split at h
    next hprefix =>
      obtain ⟨tail, htail⟩ := List.isPrefixOf_iff_prefix.mp hprefix
      rw [← htail, List.drop_left] at h
      cases h
      exact String.toList_inj.mp (by rw [← htail, String.toList_append, String.toList_ofList])
    next => cases h
  · rintro rfl
    rw [String.toList_append, if_pos (List.isPrefixOf_iff_prefix.mpr (List.prefix_append ..)),
      List.drop_left]
    exact congrArg some String.ofList_toList

namespace Utterance

/-! ## Controls -/

namespace Control

@[simp] theorem read?_text (c : Control) : read? c.text = some c := by
  cases c <;> simp [read?, text, String.after?, Text.dropStart?, List.isPrefixOf]

@[simp] theorem isControl_text (c : Control) : Label.isControl c.text = true := by
  cases c <;> simp [text, Label.isControl, String.after?, Text.dropStart?, List.isPrefixOf]

/-- What is read as a control is the text of one. -/
theorem eq_text_of_read? {label : String} {c : Control} (h : read? label = some c) :
    label = c.text := by
  simp only [read?, Option.or_eq_some_iff, Option.map_eq_some_iff, String.after?_eq_some] at h
  rcases h with ⟨_, rfl, rfl⟩ | ⟨-, ⟨_, rfl, rfl⟩ | ⟨-, ⟨_, rfl, rfl⟩ | ⟨-, h⟩⟩⟩
  · rfl
  · rfl
  · rfl
  · rcases h with ⟨_, rfl, rfl⟩ | ⟨-, ⟨_, rfl, rfl⟩ | ⟨-, _, rfl, rfl⟩⟩
    · rfl
    · rfl
    · rfl

theorem read?_of_not_isControl {label : String} (h : Label.isControl label = false) :
    read? label = none := by
  cases hread : read? label with
  | none => rfl
  | some c =>
      rw [eq_text_of_read? hread, isControl_text] at h
      cases h

end Control

namespace Label

theorem intent?_eq_some {label name : String} :
    intent? label = some name ↔ label = (Control.intent name).text :=
  String.after?_eq_some

@[simp] theorem intent?_text (name : String) : intent? (Control.intent name).text = some name :=
  intent?_eq_some.mpr rfl

theorem isControl_append (s : String) : isControl ("__" ++ s) = true := by
  rw [isControl, String.after?_eq_some.mpr rfl]
  rfl

theorem not_mark_of_not_isControl {label : String} (h : isControl label = false) :
    label.after? packMark = none := by
  cases hafter : label.after? packMark with
  | none => rfl
  | some rest =>
      have hlabel : label = "__" ++ ("unpack__" ++ rest) := by
        rw [String.after?_eq_some.mp hafter, ← String.append_assoc]
        rfl
      rw [hlabel, isControl_append] at h
      cases h

/-! ## Packing -/

theorem unpack?_of_not_packed {label : String} (h : label.after? packMark = none) :
    unpack? label = some label := by
  rw [unpack?, h]

theorem fromUTF8?_toUTF8 (s : String) : String.fromUTF8? s.toUTF8 = some s := by
  unfold String.fromUTF8?
  rw [String.toUTF8_eq_toByteArray, dif_pos s.isValidUTF8]
  rfl

/-- The bytes are listed from a position on. -/
theorem toList_loop_eq (bytes : ByteArray) {i : Nat} (hi : i ≤ bytes.size)
    (done : List UInt8) :
    ByteArray.toList.loop bytes i done = done.reverse ++ bytes.data.toList.drop i := by
  induction hn : bytes.size - i generalizing i done with
  | zero =>
      have hend : ¬i < bytes.size := by omega
      have hdrop : bytes.data.toList.drop i = [] := List.drop_of_length_le (by simp; omega)
      rw [ByteArray.toList.loop.eq_1, if_neg hend, hdrop, List.append_nil]
  | succ n ih =>
      have hsize : i < bytes.size := by omega
      have hlt : i < bytes.data.size := hsize
      have hdrop : bytes.data.toList.drop i
          = bytes.data[i] :: bytes.data.toList.drop (i + 1) := List.drop_eq_getElem_cons hlt
      have hget : bytes.get! i = bytes.data[i] := getElem!_pos bytes.data i hlt
      rw [ByteArray.toList.loop.eq_1, if_pos hsize, ih hlt _ (by omega), hdrop, hget,
        List.reverse_cons, List.append_assoc, List.singleton_append]

theorem toList_eq_data (bytes : ByteArray) : bytes.toList = bytes.data.toList :=
  toList_loop_eq bytes (Nat.zero_le _) []

/-- A text that does not look packed is packed and unpacked again. -/
theorem unpack?_pack {s : String} (h : s.after? packMark = none) : unpack? (pack s) = some s := by
  rw [pack]
  split
  next hblank =>
    have htrim : Text.trim (Text.Base64.encode s.toUTF8.toList) = _ :=
      Text.trim_of_not_blank fun c => Text.Base64.not_blank_of_mem_encode
    rw [unpack?, String.after?_eq_some.mpr rfl]
    simp only [String.toList_ofList, htrim, Text.Base64.decode_encode, Option.bind_eq_bind,
      Option.bind_some]
    rw [toList_eq_data, Array.toArray_toList]
    exact fromUTF8?_toUTF8 s
  next => exact unpack?_of_not_packed h

end Label

end Utterance
