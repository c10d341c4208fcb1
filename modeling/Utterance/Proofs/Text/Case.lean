import Mathlib.Data.Nat.Bitwise
import Utterance.Text.Case

/-!
# Casing twice

A text that has been put in lower or in upper case is not changed by the same casing again
(`lower_lower`, `upper_upper`).  For single characters this is read off the tables: a code
point is moved only if it is in a run of its table, and no code point that others are moved
to is itself in a run.  Only the small sigma looks at what stands around it, and both its
forms stay.

Casing makes no text empty that is not (`lowerAfter_eq_nil_iff`, `upper_eq_nil_iff`), nor does it
make a star of another text: no code point is moved to that of the star.

The tables have some thousand members.  Sets of code points are held as the bits of a number,
so that two of them are disjoint if one operation on numbers gives zero (`disjoint_of_bits`).
-/

namespace Utterance.Text

/-! ## Sets of numbers -/

/-- The numbers of a list as bits. -/
def bits (l : List Nat) : Nat := l.foldr (fun n m => m ||| 1 <<< n) 0

/-- The numbers of several lists as bits. -/
def bitsOfEach (ls : List (List Nat)) : Nat := ls.foldr (fun l m => m ||| bits l) 0

theorem testBit_bits {l : List Nat} {n : Nat} : (bits l).testBit n = true ↔ n ∈ l := by
  induction l with
  | nil => simp [bits]
  | cons a l ih =>
      simp only [bits, List.foldr_cons, Nat.testBit_or, Bool.or_eq_true, List.mem_cons] at ih ⊢
      rw [ih, Nat.one_shiftLeft, Nat.testBit_two_pow, decide_eq_true_eq, or_comm, eq_comm]

theorem testBit_bitsOfEach {ls : List (List Nat)} {n : Nat} :
    (bitsOfEach ls).testBit n = true ↔ ∃ l ∈ ls, n ∈ l := by
  induction ls with
  | nil => simp [bitsOfEach]
  | cons l ls ih =>
      simp only [bitsOfEach, List.foldr_cons, Nat.testBit_or, Bool.or_eq_true] at ih ⊢
      rw [ih, testBit_bits, or_comm]
      simp only [List.mem_cons, or_and_right, exists_or, exists_eq_left]

theorem disjoint_of_bits {as bs : List (List Nat)} (h : bitsOfEach as &&& bitsOfEach bs = 0)
    {a b : List Nat} (ha : a ∈ as) (hb : b ∈ bs) {n : Nat} (hn : n ∈ a) : n ∉ b := by
  intro hnb
  have hbit := Nat.testBit_and (bitsOfEach as) (bitsOfEach bs) n
  rw [h, Nat.zero_testBit, testBit_bitsOfEach.mpr ⟨a, ha, hn⟩,
    testBit_bitsOfEach.mpr ⟨b, hb, hnb⟩] at hbit
  cases hbit

/-- The code point of a character is the number it is made of, or zero. -/
theorem toNat_ofNat (n : Nat) : (Char.ofNat n).toNat = n ∨ (Char.ofNat n).toNat = 0 := by
  by_cases h : n.isValidChar
  · exact .inl (congrArg Char.toNat (dif_pos h))
  · exact .inr (congrArg Char.toNat (dif_neg h))

/-- A character that is made of an image is not moved, nor is one that cannot be made. -/
theorem toNat_ofNat_not_mem {images moved : List (List Nat)}
    (h : bitsOfEach images &&& bitsOfEach moved = 0) {zeros : List Nat} (hzeros : zeros ∈ images)
    (hzero : 0 ∈ zeros) {n : Nat} {l : List Nat} (hl : l ∈ images) (hn : n ∈ l) :
    ∀ l' ∈ moved, (Char.ofNat n).toNat ∉ l' := by
  intro l' hl'
  rcases toNat_ofNat n with heq | heq
  · rw [heq]
    exact disjoint_of_bits h hl hl' hn
  · rw [heq]
    exact disjoint_of_bits h hzeros hl' hzero

/-! ## Runs of code points -/

/-- The code points in a run. -/
def CaseRun.members (r : CaseRun) : List Nat :=
  (List.range ((r.last - r.first) / r.step + 1)).map fun i => r.first + i * r.step

/-- The code points that those of a run are moved to. -/
def CaseRun.images (r : CaseRun) : List Nat := r.members.map fun (n : Nat) => (n + r.shift).toNat

theorem CaseRun.mem_members {r : CaseRun} {n : Nat} (hfirst : r.first ≤ n) (hlast : n ≤ r.last)
    (hstep : (n - r.first) % r.step = 0) : n ∈ r.members := by
  obtain ⟨i, hi⟩ := Nat.dvd_of_mod_eq_zero hstep
  have hle : (n - r.first) / r.step ≤ (r.last - r.first) / r.step :=
    Nat.div_le_div_right (by omega)
  refine List.mem_map.mpr ⟨(n - r.first) / r.step, List.mem_range.mpr (by omega), ?_⟩
  rw [Nat.div_mul_cancel (Nat.dvd_of_mod_eq_zero hstep)]
  omega

/-- A code point that is moved is a member of one of the runs. -/
theorem shiftCase_eq (n : Nat) (runs : List CaseRun) :
    shiftCase n runs = n ∨ ∃ r ∈ runs, n ∈ r.members ∧ shiftCase n runs = (n + r.shift).toNat := by
  induction runs with
  | nil => exact .inl rfl
  | cons r runs ih =>
      rw [shiftCase]
      split
      next =>
        rcases ih with ih | ⟨r', hr', hn⟩
        · exact .inl ih
        · exact .inr ⟨r', List.mem_cons_of_mem _ hr', hn⟩
      next hlast =>
        split
        next hin =>
          simp only [Bool.and_eq_true, decide_eq_true_eq, beq_iff_eq] at hin
          exact .inr ⟨r, List.mem_cons_self, CaseRun.mem_members hin.1 (by omega) hin.2, rfl⟩
        next => exact .inl rfl

theorem shiftCase_of_not_mem {n : Nat} {runs : List CaseRun} (h : ∀ r ∈ runs, n ∉ r.members) :
    shiftCase n runs = n := by
  rcases shiftCase_eq n runs with hsame | ⟨r, hr, hn, -⟩
  · exact hsame
  · exact (h r hr hn).elim

/-! ## Lower case -/

/-- The character is its own small form, wherever it stands. -/
def IsLower (c : Char) : Prop := c ≠ 'Σ' ∧ lowerChar c = [c]

/-- The code points of small forms. -/
def lowerImages : List (List Nat) := [0, 0x69, 0x307, 0x3C2, 0x3C3] :: lowerRuns.map CaseRun.images

/-- The code points that have another small form. -/
def lowerMoved : List (List Nat) := [0x130, 0x3A3] :: lowerRuns.map CaseRun.members

theorem disjoint_lowerImages : bitsOfEach lowerImages &&& bitsOfEach lowerMoved = 0 := by
  decide +kernel

theorem isLower_of_not_mem {c : Char} (h : ∀ l ∈ lowerMoved, c.toNat ∉ l) : IsLower c := by
  obtain ⟨hfirst, hruns⟩ := List.forall_mem_cons.mp h
  simp only [List.mem_cons, List.not_mem_nil, or_false, not_or] at hfirst
  obtain ⟨hdot, hsigma⟩ := hfirst
  refine ⟨fun hc => hsigma (congrArg Char.toNat hc), ?_⟩
  rw [lowerChar, if_neg (by simpa using hdot),
    shiftCase_of_not_mem fun r hr => hruns _ (List.mem_map_of_mem hr), Char.ofNat_toNat]

theorem isLower_ofNat {n : Nat} {l : List Nat} (hl : l ∈ lowerImages) (hn : n ∈ l) :
    IsLower (Char.ofNat n) :=
  isLower_of_not_mem (toNat_ofNat_not_mem disjoint_lowerImages List.mem_cons_self
    List.mem_cons_self hl hn)

theorem isLower_of_mem_lowerChar {c d : Char} (hc : c ≠ 'Σ') (hd : d ∈ lowerChar c) :
    IsLower d := by
  rw [lowerChar] at hd
  split at hd
  next =>
    rcases List.mem_cons.mp hd with rfl | hd
    · exact isLower_ofNat (n := 0x69) List.mem_cons_self (by simp)
    · obtain rfl := List.mem_singleton.mp hd
      exact isLower_ofNat List.mem_cons_self (by simp)
  next hdot =>
    obtain rfl := List.mem_singleton.mp hd
    rcases shiftCase_eq c.toNat lowerRuns with hsame | ⟨r, hr, hn, hmoved⟩
    · rw [hsame, Char.ofNat_toNat]
      refine ⟨hc, ?_⟩
      rw [lowerChar, if_neg hdot, hsame, Char.ofNat_toNat]
    · exact isLower_ofNat (List.mem_cons_of_mem _ (List.mem_map_of_mem hr))
        (List.mem_map.mpr ⟨_, hn, hmoved.symm⟩)

theorem isLower_smallSigma (before after : List Char) : IsLower (smallSigma before after) := by
  rw [smallSigma]
  split
  · exact isLower_ofNat (n := 0x3C2) List.mem_cons_self (by simp)
  · exact isLower_ofNat (n := 0x3C3) List.mem_cons_self (by simp)

theorem isLower_of_mem_lowerAfter {before cs : List Char} :
    ∀ d ∈ lowerAfter before cs, IsLower d := by
  induction cs generalizing before with
  | nil => exact fun _ hd => (List.not_mem_nil hd).elim
  | cons c cs ih =>
      intro d hd
      rw [lowerAfter, List.mem_append] at hd
      rcases hd with hd | hd
      · split at hd
        next =>
          obtain rfl := List.mem_singleton.mp hd
          exact isLower_smallSigma before cs
        next hc => exact isLower_of_mem_lowerChar (by simpa using hc) hd
      · exact ih d hd

theorem lowerAfter_of_isLower {before cs : List Char} (h : ∀ c ∈ cs, IsLower c) :
    lowerAfter before cs = cs := by
  induction cs generalizing before with
  | nil => rfl
  | cons c cs ih =>
      obtain ⟨⟨hsigma, hc⟩, hcs⟩ := List.forall_mem_cons.mp h
      rw [lowerAfter, if_neg (by simpa using hsigma), hc, ih hcs]
      rfl

theorem lower_lower (cs : List Char) : lower (lower cs) = lower cs :=
  lowerAfter_of_isLower isLower_of_mem_lowerAfter

/-! ## Upper case -/

/-- The character is its own capital form. -/
def IsUpper (c : Char) : Prop := upperChar c = [c]

/-- The code points of capital forms. -/
def upperImages : List (List Nat) :=
  [0] :: (upperSequences.map Prod.snd ++ upperRuns.map CaseRun.images)

/-- The code points that have another capital form. -/
def upperMoved : List (List Nat) := upperSequences.map Prod.fst :: upperRuns.map CaseRun.members

theorem disjoint_upperImages : bitsOfEach upperImages &&& bitsOfEach upperMoved = 0 := by
  decide +kernel

theorem isUpper_of_not_mem {c : Char} (h : ∀ l ∈ upperMoved, c.toNat ∉ l) : IsUpper c := by
  obtain ⟨hsequences, hruns⟩ := List.forall_mem_cons.mp h
  have hnone : upperSequences.lookup c.toNat = none := by
    refine List.lookup_eq_none_iff.mpr fun image himage => ?_
    rw [bne_iff_ne]
    rintro heq
    exact hsequences (heq ▸ List.mem_map_of_mem himage)
  rw [IsUpper, upperChar, hnone]
  simp only
  rw [shiftCase_of_not_mem fun r hr => hruns _ (List.mem_map_of_mem hr), Char.ofNat_toNat]

theorem isUpper_ofNat {n : Nat} {l : List Nat} (hl : l ∈ upperImages) (hn : n ∈ l) :
    IsUpper (Char.ofNat n) :=
  isUpper_of_not_mem (toNat_ofNat_not_mem disjoint_upperImages List.mem_cons_self
    List.mem_cons_self hl hn)

theorem isUpper_of_mem_upperChar {c d : Char} (hd : d ∈ upperChar c) : IsUpper d := by
  rw [upperChar] at hd
  split at hd
  next image himage =>
    obtain ⟨before, after, hsplit, -⟩ := List.lookup_eq_some_iff.mp himage
    obtain ⟨n, hn, rfl⟩ := List.mem_map.mp hd
    have hmem : (c.toNat, image) ∈ upperSequences := by
      rw [hsplit]
      exact List.mem_append_right _ List.mem_cons_self
    exact isUpper_ofNat
      (List.mem_cons_of_mem _ (List.mem_append_left _ (List.mem_map_of_mem hmem))) hn
  next hnone =>
    obtain rfl := List.mem_singleton.mp hd
    rcases shiftCase_eq c.toNat upperRuns with hsame | ⟨r, hr, hn, hmoved⟩
    · rw [hsame, Char.ofNat_toNat, IsUpper, upperChar, hnone, hsame, Char.ofNat_toNat]
    · exact isUpper_ofNat
        (List.mem_cons_of_mem _ (List.mem_append_right _ (List.mem_map_of_mem hr)))
        (List.mem_map.mpr ⟨_, hn, hmoved.symm⟩)

theorem upper_of_isUpper {cs : List Char} (h : ∀ c ∈ cs, IsUpper c) : upper cs = cs := by
  induction cs with
  | nil => rfl
  | cons c cs ih =>
      obtain ⟨hc, hcs⟩ := List.forall_mem_cons.mp h
      rw [upper, List.flatMap_cons, hc]
      exact congrArg (c :: ·) (ih hcs)

theorem isUpper_of_mem_upper {cs : List Char} : ∀ d ∈ upper cs, IsUpper d := by
  intro d hd
  obtain ⟨c, -, hd⟩ := List.mem_flatMap.mp hd
  exact isUpper_of_mem_upperChar hd

theorem upper_upper (cs : List Char) : upper (upper cs) = upper cs :=
  upper_of_isUpper isUpper_of_mem_upper

/-! ## What comes of nothing else -/

/-- No code point is moved to that of the character. -/
theorem eq_of_ofNat_shiftCase {c d : Char} {runs : List CaseRun} (hd : d.toNat ≠ 0)
    (himages : ∀ r ∈ runs, d.toNat ∉ r.images) (h : Char.ofNat (shiftCase c.toNat runs) = d) :
    c = d := by
  rcases shiftCase_eq c.toNat runs with hsame | ⟨r, hr, hn, hmoved⟩
  · rwa [hsame, Char.ofNat_toNat] at h
  · have hmem : (c.toNat + r.shift).toNat ∈ r.images := List.mem_map.mpr ⟨_, hn, rfl⟩
    rw [hmoved] at h
    rcases toNat_ofNat (c.toNat + r.shift).toNat with heq | heq
    · rw [← heq, h] at hmem
      exact (himages r hr hmem).elim
    · rw [h] at heq
      exact (hd heq).elim

theorem lowerChar_ne_nil (c : Char) : lowerChar c ≠ [] := by
  rw [lowerChar]
  split
  · exact List.cons_ne_nil _ _
  · exact List.cons_ne_nil _ _

theorem upperChar_ne_nil (c : Char) : upperChar c ≠ [] := by
  have himages : ∀ entry ∈ upperSequences, entry.2 ≠ [] := by decide
  rw [upperChar]
  split
  next image hlookup =>
    obtain ⟨before, after, hentries, -⟩ := List.lookup_eq_some_iff.mp hlookup
    have hne := himages (c.toNat, image) (by rw [hentries]; simp)
    exact mt List.map_eq_nil_iff.mp hne
  next => exact List.cons_ne_nil _ _

theorem eq_star_of_lowerChar {c : Char} (h : lowerChar c = ['*']) : c = '*' := by
  rw [lowerChar] at h
  split at h
  · simp at h
  · exact eq_of_ofNat_shiftCase (by decide) (by decide +kernel) (List.cons.inj h).1

theorem eq_star_of_upperChar {c : Char} (h : upperChar c = ['*']) : c = '*' := by
  have himages : ∀ entry ∈ upperSequences, '*'.toNat ∉ entry.2 := by decide
  rw [upperChar] at h
  split at h
  next image hlookup =>
    obtain ⟨n, rfl, hn⟩ := List.map_eq_singleton_iff.mp h
    obtain ⟨before, after, hentries, -⟩ := List.lookup_eq_some_iff.mp hlookup
    have hstar := himages (c.toNat, [n]) (by rw [hentries]; simp)
    rcases toNat_ofNat n with heq | heq
    · rw [hn] at heq
      exact (hstar (heq ▸ List.mem_singleton_self n)).elim
    · rw [hn] at heq
      cases heq
  next => exact eq_of_ofNat_shiftCase (by decide) (by decide +kernel) (List.cons.inj h).1

/-- A text that is made of parts is a single character only if one part is. -/
theorem eq_singleton_of_append {l m : List Char} {d : Char} (hl : l ≠ []) (h : l ++ m = [d]) :
    l = [d] ∧ m = [] := by
  rcases List.append_eq_singleton_iff.mp h with ⟨hnil, -⟩ | heq
  · exact (hl hnil).elim
  · exact heq

theorem lowerAfter_eq_nil_iff {before cs : List Char} : lowerAfter before cs = [] ↔ cs = [] := by
  cases cs with
  | nil => exact iff_of_true rfl rfl
  | cons c cs =>
      refine iff_of_false (fun h => ?_) (List.cons_ne_nil _ _)
      have hnil := (List.append_eq_nil_iff.mp h).1
      split at hnil
      · cases hnil
      · exact lowerChar_ne_nil c hnil

theorem upper_eq_nil_iff {cs : List Char} : upper cs = [] ↔ cs = [] := by
  cases cs with
  | nil => exact iff_of_true rfl rfl
  | cons c cs =>
      refine iff_of_false (fun h => ?_) (List.cons_ne_nil _ _)
      rw [upper, List.flatMap_cons] at h
      exact upperChar_ne_nil c (List.append_eq_nil_iff.mp h).1

theorem eq_star_of_lower {cs : List Char} (h : lower cs = ['*']) : cs = ['*'] := by
  cases cs with
  | nil => cases h
  | cons c cs =>
      rw [lower, lowerAfter] at h
      split at h
      next =>
        have hsigma := (eq_singleton_of_append (List.cons_ne_nil _ _) h).1
        have hne : smallSigma [] cs ≠ '*' := by
          rw [smallSigma]
          split
          · decide
          · decide
        exact (hne (List.cons.inj hsigma).1).elim
      next =>
        obtain ⟨hc, hcs⟩ := eq_singleton_of_append (lowerChar_ne_nil c) h
        rw [eq_star_of_lowerChar hc, lowerAfter_eq_nil_iff.mp hcs]

theorem eq_star_of_upper {cs : List Char} (h : upper cs = ['*']) : cs = ['*'] := by
  cases cs with
  | nil => cases h
  | cons c cs =>
      rw [upper, List.flatMap_cons] at h
      obtain ⟨hc, hcs⟩ := eq_singleton_of_append (upperChar_ne_nil c) h
      rw [eq_star_of_upperChar hc, upper_eq_nil_iff.mp hcs]

end Utterance.Text

namespace String

open Utterance

@[simp] theorem lowerCase_lowerCase (s : String) : s.lowerCase.lowerCase = s.lowerCase := by
  rw [lowerCase, lowerCase, toList_ofList, Text.lower_lower]

@[simp] theorem upperCase_upperCase (s : String) : s.upperCase.upperCase = s.upperCase := by
  rw [upperCase, upperCase, toList_ofList, Text.upper_upper]

theorem lowerCase_eq_empty_iff {s : String} : s.lowerCase = "" ↔ s = "" := by
  rw [lowerCase, ← toList_eq_nil_iff, toList_ofList, Text.lower, Text.lowerAfter_eq_nil_iff,
    toList_eq_nil_iff]

theorem upperCase_eq_empty_iff {s : String} : s.upperCase = "" ↔ s = "" := by
  rw [upperCase, ← toList_eq_nil_iff, toList_ofList, Text.upper_eq_nil_iff, toList_eq_nil_iff]

theorem eq_star_of_lowerCase {s : String} (h : s.lowerCase = "*") : s = "*" := by
  have hcs : Text.lower s.toList = ['*'] := by
    rw [← toList_ofList (l := Text.lower s.toList)]
    exact congrArg toList h
  exact toList_inj.mp (Text.eq_star_of_lower hcs)

theorem eq_star_of_upperCase {s : String} (h : s.upperCase = "*") : s = "*" := by
  have hcs : Text.upper s.toList = ['*'] := by
    rw [← toList_ofList (l := Text.upper s.toList)]
    exact congrArg toList h
  exact toList_inj.mp (Text.eq_star_of_upper hcs)

end String
