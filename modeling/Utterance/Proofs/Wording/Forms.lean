import Utterance.Proofs.Graph.Label
import Utterance.Proofs.Wording.Range

/-!
# The forms of a number

A number is heard as its digits or in words (`Number.forms`).  No two numbers of sixty-four bits
have a form in common (`Number.eq_of_mem_forms`): decimal texts are read back, words of a number
are understood again, and no word of a number is a decimal text.  The words in all forms are
*ordinary*: an edge that hears such a word may also say it.
-/

namespace Utterance

/-! ## Words that say themselves -/

/-- The word is heard and said as it is written: it is not empty, no wildcard, and looks like no
mark. -/
structure Ordinary (w : String) : Prop where
  ne : w ≠ ""
  ne_wildcard : w ≠ wildcard
  not_control : Label.isControl w = false

/-- A word without asterisks and low lines is ordinary. -/
theorem ordinary_of_forall {w : String} (hne : w ≠ "") (h : ∀ c ∈ w.toList, c ≠ '*' ∧ c ≠ '_') :
    Ordinary w where
  ne := hne
  ne_wildcard := by
    rintro rfl
    exact (h '*' (by decide)).1 rfl
  not_control := by
    rw [Label.isControl]
    cases hafter : w.after? "__" with
    | none => rfl
    | some rest =>
        rw [String.after?_eq_some.mp hafter] at h
        exact absurd rfl (h '_' (by simp)).2

theorem Lettered.ordinary {w : String} (hw : Lettered w) : Ordinary w :=
  ordinary_of_forall hw.ne fun _ hc => ⟨Text.ne_of_isLetter (hw.letters _ hc) (by decide),
    Text.ne_of_isLetter (hw.letters _ hc) (by decide)⟩

theorem ordinary_repr (n : Int) : Ordinary n.repr :=
  ordinary_of_forall (Decimal.repr_ne_empty n) (Decimal.forall_mem_repr
    (P := fun c => c ≠ '*' ∧ c ≠ '_') (by decide)
    (fun _ hc => ⟨(by rintro rfl; cases hc), (by rintro rfl; cases hc)⟩) n)

/-! ## The forms of a number -/

namespace Number

/-- A number may be heard as its digits or in words. -/
def forms (n : Int) : List (List String) := [[n.repr], English.spell n]

theorem natAbs_lt {n : Int} (hn : Decimal.fitsInt64 n = true) : n.natAbs < 1000 ^ 7 := by
  obtain ⟨hmin, hmax⟩ := (Bool.and_eq_true _ _).mp hn
  have hmin := of_decide_eq_true hmin
  have hmax := of_decide_eq_true hmax
  rw [Decimal.minInt64] at hmin
  rw [Decimal.maxInt64] at hmax
  omega

theorem lettered_of_mem_spell {n : Int} (hn : Decimal.fitsInt64 n = true) :
    ∀ w ∈ English.spell n, Lettered w :=
  English.forall_mem_spell (by decide +kernel) (natAbs_lt hn)

theorem repr_ne_of_lettered {w : String} (hw : Lettered w) (n : Int) : n.repr ≠ w := fun h => by
  have hcut := cutInteger?_repr n
  rw [h, cutInteger?_of_lettered hw] at hcut
  cases hcut

theorem singleton_repr_ne_spell {n : Int} (hn : Decimal.fitsInt64 n = true) (m : Int) :
    [m.repr] ≠ English.spell n := fun h =>
  repr_ne_of_lettered (lettered_of_mem_spell hn m.repr (h ▸ List.mem_singleton_self _)) m rfl

variable {m n : Int} {ws : List String}

theorem mem_forms : ws ∈ forms n ↔ ws = [n.repr] ∨ ws = English.spell n := by
  simp [forms]

/-- Digits are the form of one number only. -/
theorem eq_of_singleton_repr_mem_forms (hn : Decimal.fitsInt64 n = true)
    (h : [m.repr] ∈ forms n) : m = n := by
  rcases mem_forms.mp h with h | h
  · exact Decimal.repr_injective (List.singleton_inj.mp h)
  · exact absurd h (singleton_repr_ne_spell hn m)

/-- No two numbers have a form in common. -/
theorem eq_of_mem_forms (hm : Decimal.fitsInt64 m = true) (hn : Decimal.fitsInt64 n = true)
    (hwm : ws ∈ forms m) (hwn : ws ∈ forms n) : m = n := by
  rcases mem_forms.mp hwm with rfl | rfl
  · exact eq_of_singleton_repr_mem_forms hn hwn
  · rcases mem_forms.mp hwn with h | h
    · exact absurd h.symm (singleton_repr_ne_spell hm n)
    · exact English.spell_injective (natAbs_lt hm) (natAbs_lt hn) h

theorem nodup_forms (hn : Decimal.fitsInt64 n = true) : (forms n).Nodup :=
  List.nodup_cons.mpr ⟨fun h => singleton_repr_ne_spell hn n (List.mem_singleton.mp h),
    List.nodup_singleton _⟩

theorem ordinary_of_mem_forms (hn : Decimal.fitsInt64 n = true) (h : ws ∈ forms n) :
    ∀ w ∈ ws, Ordinary w := by
  rcases mem_forms.mp h with rfl | rfl
  · exact List.forall_mem_singleton.mpr (ordinary_repr n)
  · exact fun w hw => (lettered_of_mem_spell hn w hw).ordinary

end Number

end Utterance
