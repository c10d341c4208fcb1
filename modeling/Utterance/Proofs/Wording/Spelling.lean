import Mathlib.Algebra.Ring.Nat
import Mathlib.Tactic.Ring
import Utterance.Wording.Spelling

/-!
# Spelled numbers are understood

The words of a number are taken in from left to right.  A numeral adds to the group of three
digits that is being heard, `hundred` multiplies it, and the name of a scale moves it to the
total (`Role.apply`).  What is spelled for a number is understood as this number
(`understand?_spell`), by one lemma for each part of the speller.  So different numbers are
spelled differently (`spell_injective`), and only words of the vocabulary are spoken
(`exists_role_of_mem_spell`).

The speller looks its words up in tables.  With numbers of sixty-four bits it does not look
beyond their ends (`spell?_eq`).
-/

namespace Utterance.English

/-! ## Taking in the words of a number -/

/-- What a word in a number does. -/
inductive Role where
  | negates
  | joins
  | adds (n : Nat)
  | hundreds
  /-- Ends a group, which counts thousands to this power. -/
  | scales (k : Nat)
deriving DecidableEq, Repr, Inhabited

/-- The words of numbers. -/
def vocabulary : List (String × Role) :=
  [("minus", .negates), ("and", .joins), ("hundred", .hundreds)] ++
    (ones.zipIdx.map fun (word, n) => (word, .adds n)) ++
    ((tens.zipIdx.drop 2).map fun (word, n) => (word, .adds (10 * n))) ++
    (scales.zipIdx.drop 1).map fun (word, k) => (word, .scales k)

def role? (word : String) : Option Role := vocabulary.lookup word

/-- What has been heard of a number. -/
structure Tally where
  negative : Bool := false
  /-- The sum of the groups that are complete. -/
  total : Nat := 0
  /-- The group that is being heard. -/
  group : Nat := 0
deriving DecidableEq, Repr, Inhabited

def Role.apply (s : Tally) : Role → Tally
  | negates => { s with negative := true }
  | joins => s
  | adds n => { s with group := s.group + n }
  | hundreds => { s with group := s.group * 100 }
  | scales k => { s with total := s.total + s.group * 1000 ^ k, group := 0 }

namespace Tally

def hear? (s : Tally) (word : String) : Option Tally := (role? word).map (Role.apply s)

def hearAll? (s : Tally) (words : List String) : Option Tally := words.foldlM hear? s

def value (s : Tally) : Int :=
  if s.negative then -((s.total + s.group : Nat) : Int) else (s.total + s.group : Nat)

end Tally

/-- The number that words stand for; none if one of them is no word of a number. -/
def understand? (words : List String) : Option Int := (Tally.hearAll? {} words).map Tally.value

namespace Tally

variable {s : Tally} {words more : List String}

@[simp] theorem hearAll?_nil (s : Tally) : s.hearAll? [] = some s := rfl

theorem hearAll?_cons {word : String} {r : Role} (hr : role? word = some r) :
    s.hearAll? (word :: words) = (r.apply s).hearAll? words := by
  rw [hearAll?, List.foldlM_cons, hear?, hr]
  rfl

theorem hearAll?_append {s' : Tally} (h : s.hearAll? words = some s') :
    s.hearAll? (words ++ more) = s'.hearAll? more := by
  rw [hearAll?, List.foldlM_append]
  rw [hearAll?] at h
  rw [h]
  rfl

/-- All words that are taken in are words of numbers. -/
theorem exists_role_of_hearAll? {s' : Tally} (h : s.hearAll? words = some s') :
    ∀ word ∈ words, ∃ r, role? word = some r := by
  induction words generalizing s with
  | nil => exact fun _ hword => (List.not_mem_nil hword).elim
  | cons word words ih =>
      cases hr : role? word with
      | none =>
          rw [hearAll?, List.foldlM_cons, hear?, hr] at h
          cases h
      | some r =>
          rw [hearAll?_cons hr] at h
          exact List.forall_mem_cons.mpr ⟨⟨r, hr⟩, ih h⟩

end Tally

/-! ## The words of a group -/

theorem role?_ones : ∀ n < 20, role? (ones.getD n "") = some (.adds n) := by decide +kernel

theorem role?_tens : ∀ d < 10, 2 ≤ d → role? (tens.getD d "") = some (.adds (10 * d)) := by
  decide

theorem role?_scales : ∀ k < 7, 0 < k → role? (scales.getD k "") = some (.scales k) := by
  decide

variable {s : Tally} {n : Nat}

theorem hearAll?_belowHundred (hn : n < 100) :
    s.hearAll? (belowHundred n) = some { s with group := s.group + n } := by
  rw [belowHundred]
  split
  next hlt => rw [Tally.hearAll?_cons (role?_ones n hlt)]; rfl
  next hge =>
    rw [Tally.hearAll?_cons (role?_tens (n / 10) (by omega) (by omega))]
    split
    next hpos =>
      rw [Tally.hearAll?_cons (role?_ones (n % 10) (by omega)), Tally.hearAll?_nil]
      simp only [Role.apply, Nat.add_assoc, Nat.div_add_mod]
    next hzero =>
      rw [Tally.hearAll?_nil]
      simp only [Role.apply]
      rw [show 10 * (n / 10) = n by omega]

theorem hearAll?_belowThousand (hn : n < 1000) (hs : s.group = 0) :
    s.hearAll? (belowThousand n) = some { s with group := n } := by
  have hhundred : role? "hundred" = some .hundreds := by decide
  have hand : role? "and" = some .joins := by decide
  rw [belowThousand]
  split
  next hge =>
    rw [Tally.hearAll?_cons (role?_ones (n / 100) (by omega)), Tally.hearAll?_cons hhundred]
    simp only [Role.apply, hs, Nat.zero_add]
    split
    next hpos =>
      rw [Tally.hearAll?_cons hand, Role.apply, hearAll?_belowHundred (Nat.mod_lt _ (by decide))]
      simp only [Nat.div_add_mod']
    next hzero =>
      rw [Tally.hearAll?_nil, show n / 100 * 100 = n by omega]
  next hlt => rw [hearAll?_belowHundred (by omega), hs, Nat.zero_add]

theorem hearAll?_spellGroup_zero (hn : n < 1000) (hs : s.group = 0) :
    s.hearAll? (spellGroup 0 n) = some { s with group := n } := by
  rw [spellGroup]
  by_cases hzero : n = 0
  · subst hzero
    cases s
    cases hs
    rfl
  · rw [if_neg (by simpa using hzero), if_pos (beq_self_eq_true 0), List.append_nil,
      hearAll?_belowThousand hn hs]

theorem hearAll?_spellGroup {k : Nat} (hk : 0 < k) (hscale : k < 7) (hn : n < 1000)
    (hs : s.group = 0) :
    s.hearAll? (spellGroup k n) = some { s with total := s.total + n * 1000 ^ k } := by
  rw [spellGroup]
  by_cases hzero : n = 0
  · subst hzero
    rw [if_pos (beq_self_eq_true 0), Nat.zero_mul, Nat.add_zero, Tally.hearAll?_nil]
  · rw [if_neg (by simpa using hzero), if_neg (by simpa using hk.ne'),
      Tally.hearAll?_append (hearAll?_belowThousand hn hs),
      Tally.hearAll?_cons (role?_scales k hscale hk), Tally.hearAll?_nil]
    cases s
    cases hs
    rfl

/-! ## All groups -/

/-- What groups of three digits stand for, from this scale on. -/
def weighed (k : Nat) : List Nat → Nat
  | [] => 0
  | n :: rest => n * 1000 ^ k + weighed (k + 1) rest

/-- The groups above the lowest one are taken in from the highest down. -/
theorem hearAll?_spellGroups {gs : List Nat} {k : Nat} (hgs : ∀ n ∈ gs, n < 1000) (hk : 0 < k)
    (hscale : k + gs.length ≤ 7) (hs : s.group = 0) :
    s.hearAll? (spellGroups k gs) = some { s with total := s.total + weighed k gs } := by
  induction gs generalizing k with
  | nil => rfl
  | cons n rest ih =>
      rw [List.length_cons] at hscale
      obtain ⟨hn, hrest⟩ := List.forall_mem_cons.mp hgs
      rw [spellGroups, Tally.hearAll?_append (ih hrest (Nat.succ_pos k) (by omega)),
        hearAll?_spellGroup hk (by omega) hn (by exact hs), weighed, Nat.add_assoc,
        Nat.add_comm (weighed _ _)]

theorem groups_lt (n : Nat) : ∀ m ∈ groups n, m < 1000 := by
  induction n using groups.induct with
  | case1 =>
      rw [groups, dif_pos rfl]
      exact fun _ hm => (List.not_mem_nil hm).elim
  | case2 n hn ih =>
      rw [groups, dif_neg hn]
      exact List.forall_mem_cons.mpr ⟨Nat.mod_lt _ (by decide), ih⟩

theorem weighed_groups (n k : Nat) : weighed k (groups n) = n * 1000 ^ k := by
  induction n using groups.induct generalizing k with
  | case1 => rw [groups, dif_pos rfl, weighed, Nat.zero_mul]
  | case2 n hn ih =>
      rw [groups, dif_neg hn, weighed, ih, pow_succ]
      nth_rewrite 3 [← Nat.mod_add_div n 1000]
      ring

theorem length_groups_le {k : Nat} : ∀ {n : Nat}, n < 1000 ^ k → (groups n).length ≤ k := by
  induction k with
  | zero =>
      intro n hn
      rw [Nat.lt_one_iff.mp hn, groups, dif_pos rfl, List.length_nil]
  | succ k ih =>
      intro n hn
      rw [groups]
      split
      · exact Nat.zero_le _
      · rw [List.length_cons]
        refine Nat.succ_le_succ (ih ((Nat.div_lt_iff_lt_mul (by decide)).mpr ?_))
        rwa [pow_succ] at hn

/-- The groups of a number are taken in; the lowest one is never moved to the total. -/
theorem exists_hearAll?_groups {n : Nat} (hne : n ≠ 0) (hn : n < 1000 ^ 7) (hs : s.group = 0) :
    ∃ total group, s.hearAll? (spellGroups 0 (groups n)) =
        some { s with total := s.total + total, group } ∧ total + group = n := by
  have hlength := length_groups_le hn
  have hlt := groups_lt n
  have hweighed := weighed_groups n 0
  rw [groups, dif_neg hne] at hlength hlt hweighed ⊢
  obtain ⟨hlow, hhigh⟩ := List.forall_mem_cons.mp hlt
  rw [List.length_cons] at hlength
  refine ⟨weighed 1 (groups (n / 1000)), n % 1000, ?_, ?_⟩
  · rw [spellGroups, Tally.hearAll?_append (hearAll?_spellGroups hhigh (by decide) (by omega) hs),
      hearAll?_spellGroup_zero hlow (by exact hs)]
  · rwa [weighed, pow_zero, Nat.mul_one, Nat.mul_one, Nat.add_comm] at hweighed

/-! ## Numbers -/

theorem hearAll?_sign (n : Int) : Tally.hearAll? {} (if n < 0 then ["minus"] else []) =
    some { negative := decide (n < 0) } := by
  have hminus : role? "minus" = some .negates := by decide
  by_cases hneg : n < 0
  · rw [if_pos hneg, Tally.hearAll?_cons hminus, Tally.hearAll?_nil, decide_eq_true hneg]
    rfl
  · rw [if_neg hneg, Tally.hearAll?_nil, decide_eq_false hneg]

theorem Tally.value_eq {n : Int} {total group : Nat} (h : total + group = n.natAbs) :
    Tally.value ⟨decide (n < 0), total, group⟩ = n := by
  simp only [value, h, decide_eq_true_eq]
  split <;> omega

/-- What is spelled for a number of sixty-four bits is understood as this number. -/
theorem understand?_spell {n : Int} (hn : n.natAbs < 1000 ^ 7) :
    understand? (spell n) = some n := by
  have hzero : role? (ones.getD 0 "") = some (.adds 0) := role?_ones 0 (by decide)
  rw [understand?, spell, Tally.hearAll?_append (hearAll?_sign n)]
  by_cases h : n = 0
  · subst h
    rw [if_pos (by decide), Tally.hearAll?_cons hzero]
    rfl
  · obtain ⟨total, group, hheard, hsum⟩ := exists_hearAll?_groups
      (s := { negative := decide (n < 0) }) (Int.natAbs_ne_zero.mpr h) hn rfl
    rw [if_neg (by simpa using h), hheard, Option.map_some, Nat.zero_add, Tally.value_eq hsum]

theorem spell_injective {m n : Int} (hm : m.natAbs < 1000 ^ 7) (hn : n.natAbs < 1000 ^ 7)
    (h : spell m = spell n) : m = n := by
  have hunderstood := understand?_spell hm
  rw [h, understand?_spell hn] at hunderstood
  exact (Option.some.inj hunderstood).symm

theorem exists_role_of_mem_spell {n : Int} (hn : n.natAbs < 1000 ^ 7) :
    ∀ word ∈ spell n, ∃ r, role? word = some r := by
  obtain ⟨s, hs, -⟩ := Option.map_eq_some_iff.mp (understand?_spell hn)
  exact Tally.exists_role_of_hearAll? hs

theorem spell_ne_nil {n : Int} (hn : n.natAbs < 1000 ^ 7) : spell n ≠ [] := fun hnil => by
  have hzero : n = 0 := by
    have hunderstood := understand?_spell hn
    rw [hnil] at hunderstood
    exact (Option.some.inj hunderstood).symm
  rw [hzero] at hnil
  cases hnil

/-- What holds of every word of the vocabulary holds of every word that is spoken. -/
theorem forall_mem_spell {P : String → Prop} (h : ∀ entry ∈ vocabulary, P entry.1) {n : Int}
    (hn : n.natAbs < 1000 ^ 7) : ∀ word ∈ spell n, P word := by
  intro word hword
  obtain ⟨r, hr⟩ := exists_role_of_mem_spell hn word hword
  obtain ⟨before, after, hvocabulary, -⟩ := List.lookup_eq_some_iff.mp hr
  refine h (word, r) ?_
  rw [hvocabulary]
  exact List.mem_append_right _ List.mem_cons_self

example : spell (-1250007) = ["minus", "one", "million", "two", "hundred", "and", "fifty",
    "thousand", "seven"] := by decide +kernel

/-! ## Looking up the words

`spell` takes the words from three tables, and where a table had no word it would put in the
empty one.  `spell?` speaks the same words and has none if a table lacks one of them. -/

def belowHundred? (n : Nat) : Option (List String) :=
  if n < 20 then do pure [← ones[n]?]
  else do
    let ten ← tens[n / 10]?
    if 0 < n % 10 then pure [ten, ← ones[n % 10]?] else pure [ten]

def belowThousand? (n : Nat) : Option (List String) :=
  if 100 ≤ n then do
    let hundreds ← ones[n / 100]?
    if 0 < n % 100 then pure (hundreds :: "hundred" :: "and" :: (← belowHundred? (n % 100)))
    else pure [hundreds, "hundred"]
  else belowHundred? n

def spellGroup? (scale n : Nat) : Option (List String) :=
  if n == 0 then some []
  else do
    let words ← belowThousand? n
    if scale == 0 then pure words else pure (words ++ [← scales[scale]?])

def spellGroups? (scale : Nat) : List Nat → Option (List String)
  | [] => some []
  | n :: rest => do pure ((← spellGroups? (scale + 1) rest) ++ (← spellGroup? scale n))

/-- The words for a number, if the tables hold all of them. -/
def spell? (n : Int) : Option (List String) := do
  let words ← if n == 0 then do pure [← ones[0]?] else spellGroups? 0 (groups n.natAbs)
  pure ((if n < 0 then ["minus"] else []) ++ words)

theorem getElem?_eq_some_getD {l : List String} (hn : n < l.length) :
    l[n]? = some (l.getD n "") := by
  rw [List.getD_eq_getElem?_getD, List.getElem?_eq_getElem hn, Option.getD_some]

theorem ones_getElem? (hn : n < 20) : ones[n]? = some (ones.getD n "") :=
  getElem?_eq_some_getD hn

theorem tens_getElem? (hn : n < 10) : tens[n]? = some (tens.getD n "") :=
  getElem?_eq_some_getD hn

theorem scales_getElem? (hn : n < 7) : scales[n]? = some (scales.getD n "") :=
  getElem?_eq_some_getD hn

theorem belowHundred?_eq (hn : n < 100) : belowHundred? n = some (belowHundred n) := by
  rw [belowHundred?, belowHundred]
  split
  next hlt =>
    rw [ones_getElem? hlt]
    rfl
  next hge =>
    rw [tens_getElem? (by omega), ones_getElem? (n := n % 10) (by omega)]
    split <;> rfl

theorem belowThousand?_eq (hn : n < 1000) : belowThousand? n = some (belowThousand n) := by
  rw [belowThousand?, belowThousand]
  split
  next hge =>
    rw [ones_getElem? (by omega), belowHundred?_eq (Nat.mod_lt _ (by decide))]
    split <;> rfl
  next hlt => exact belowHundred?_eq (by omega)

theorem spellGroup?_eq {k : Nat} (hk : k < 7) (hn : n < 1000) :
    spellGroup? k n = some (spellGroup k n) := by
  rw [spellGroup?, spellGroup, belowThousand?_eq hn, scales_getElem? hk]
  split
  · rfl
  · split
    · exact congrArg some (List.append_nil _).symm
    · rfl

theorem spellGroups?_eq {gs : List Nat} {k : Nat} (hgs : ∀ n ∈ gs, n < 1000)
    (hk : k + gs.length ≤ 7) : spellGroups? k gs = some (spellGroups k gs) := by
  induction gs generalizing k with
  | nil => rfl
  | cons n rest ih =>
      rw [List.length_cons] at hk
      obtain ⟨hn, hrest⟩ := List.forall_mem_cons.mp hgs
      rw [spellGroups?, spellGroups, ih hrest (by omega), spellGroup?_eq (by omega) hn]
      rfl

/-- The tables hold all words of a number below the seventh power of a thousand. -/
theorem spell?_eq {n : Int} (hn : n.natAbs < 1000 ^ 7) : spell? n = some (spell n) := by
  rw [spell?, spell, spellGroups?_eq (groups_lt _) (by simpa using length_groups_le hn),
    ones_getElem? (by decide)]
  split <;> rfl

theorem natAbs_toInt_lt (n : Int64) : n.toInt.natAbs < 1000 ^ 7 := by
  have hle := n.le_toInt
  have hlt := n.toInt_lt
  omega

/-- Different numbers of sixty-four bits are spelled differently.  Every one of them is spelled
with at least one word, and all its words are in the tables. -/
theorem spell_int64_unambiguous : (∀ m n : Int64, spell m.toInt = spell n.toInt → m = n) ∧
    ∀ n : Int64, spell? n.toInt = some (spell n.toInt) ∧ spell n.toInt ≠ [] ∧
      "" ∉ spell n.toInt := by
  constructor
  · intro m n h
    exact Int64.toInt_inj.mp (spell_injective (natAbs_toInt_lt m) (natAbs_toInt_lt n) h)
  · intro n
    have hn := natAbs_toInt_lt n
    refine ⟨spell?_eq hn, spell_ne_nil hn, fun hempty => ?_⟩
    exact forall_mem_spell (P := (· ≠ "")) (by decide) hn "" hempty rfl

example : (spell Int64.minValue.toInt).take 4 = ["minus", "nine", "quintillion", "two"] := by
  decide +kernel

end Utterance.English
