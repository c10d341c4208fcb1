import Mathlib.Tactic.IntervalCases
import Utterance.Proofs.Decimal.Digits
import Utterance.Proofs.Template.RoundTrip
import Utterance.Text.CharClass

/-!
# Words that are written as they are

Most words need no backslash: a text of *plain* characters, none of which is a mark or a
blank, is read as one word (`Takes.plain`).  Letters, digits, signs and points are plain.
What a reader of a template takes as items is what a sentence is parsed into
(`Sentence.parse_of_takes`).
-/

namespace Utterance

open Text (isBlank)

/-! ## Letters -/

/-- A letter of any script.  Numbers of other scripts count as letters, as no decimal is read
from them. -/
def Text.isLetter (c : Char) : Bool := isAlphanumeric c && !c.isDigit

/-- The text is a word that consists of letters. -/
structure Lettered (s : String) : Prop where
  ne : s ≠ ""
  letters : ∀ c ∈ s.toList, Text.isLetter c = true

instance (s : String) : Decidable (Lettered s) :=
  decidable_of_iff (s ≠ "" ∧ s.toList.all Text.isLetter = true)
    ⟨fun h => ⟨h.1, List.all_eq_true.mp h.2⟩, fun h => ⟨h.ne, List.all_eq_true.mpr h.letters⟩⟩

theorem Text.not_isBlank_of_isLetter {c : Char} (h : isLetter c = true) : isBlank c = false := by
  refine Bool.eq_false_iff.mpr fun hblank => ?_
  have hranges : inRanges c.toNat alphanumericRanges = true := (Bool.and_eq_true_iff.mp h).1
  have hnone : ∀ n ∈ [9, 10, 11, 12, 13, 32, 0x85, 0xA0, 0x1680, 0x2000, 0x2001, 0x2002, 0x2003,
      0x2004, 0x2005, 0x2006, 0x2007, 0x2008, 0x2009, 0x200A, 0x2028, 0x2029, 0x202F, 0x205F,
      0x3000], inRanges n alphanumericRanges = false := by decide +kernel
  have hmem : c.toNat ∈ [9, 10, 11, 12, 13, 32, 0x85, 0xA0, 0x1680, 0x2000, 0x2001, 0x2002, 0x2003,
      0x2004, 0x2005, 0x2006, 0x2007, 0x2008, 0x2009, 0x200A, 0x2028, 0x2029, 0x202F, 0x205F,
      0x3000] := by
    simp only [isBlank, Bool.or_eq_true, Bool.and_eq_true, decide_eq_true_eq, beq_iff_eq] at hblank
    simp only [List.mem_cons, List.not_mem_nil, or_false]
    omega
  rw [hnone _ hmem] at hranges
  cases hranges

theorem Text.ne_of_isLetter {c d : Char} (h : isLetter c = true) (hd : isLetter d = false) :
    c ≠ d := fun heq => by
  rw [heq, hd] at h
  cases h

theorem Text.forall_ne_of_isLetter {c : Char} (h : isLetter c = true) {l : List Char}
    (hl : l.all (!isLetter ·) = true) : ∀ d ∈ l, c ≠ d := fun d hd =>
  ne_of_isLetter h (by simpa using List.all_eq_true.mp hl d hd)

namespace Template

/-! ## Plain characters -/

/-- The character stands for itself in a word. -/
def isPlain (c : Char) : Bool :=
  Mark.ofChar c == .literal && !isBlank c && c != '!' && c != '$'

theorem isPlain_iff {c : Char} :
    isPlain c = true ↔ Mark.ofChar c = .literal ∧ isBlank c = false ∧ c ≠ '!' ∧ c ≠ '$' := by
  simp [isPlain, and_assoc]

theorem isPlain_of_isLetter {c : Char} (h : Text.isLetter c = true) : isPlain c = true := by
  have hne : ∀ d ∈ ['\\', '(', '[', ')', ']', '>', '\x7d', '<', '\x7b', '|', ':', '!', '$'],
      c ≠ d := Text.forall_ne_of_isLetter h (by decide)
  simp only [List.forall_mem_cons] at hne
  simp [isPlain, Mark.ofChar, hne, Text.not_isBlank_of_isLetter h]

theorem isPlain_of_isDigit {c : Char} (h : c.isDigit = true) : isPlain c = true := by
  have hchar := Char.ofNat_toNat c
  have hlow : 48 ≤ c.toNat ∧ c.toNat ≤ 57 := by
    rw [Decimal.isDigit_eq] at h
    exact (Bool.and_eq_true_iff.mp h).imp of_decide_eq_true of_decide_eq_true
  rw [← hchar]
  generalize c.toNat = n at hlow
  obtain ⟨h₁, h₂⟩ := hlow
  interval_cases n <;> decide

theorem Glyph.not_marks_of_isPlain {g : Glyph} (h : isPlain g.char = true) :
    ∀ c ∈ ['!', ':', '$'], g.marks c = false := by
  have hnone : ∀ c ∈ ['!', ':', '$'], (!isPlain c) = true := List.all_eq_true.mp rfl
  intro c hc
  refine Bool.eq_false_iff.mpr fun hmarks => ?_
  have hplain := hnone c hc
  rw [← Glyph.char_of_marks hmarks, h] at hplain
  cases hplain

variable {grammar : Option String} {frames : List Frame} {level : Level} {rest : List Char}

/-- The character goes on with a word, as itself or as the mark of a suffix. -/
def GoesOn (c : Char) : Prop := isPlain c = true ∨ c = ':' ∨ c = '!'

theorem GoesOn.not_isBlank {c : Char} (h : GoesOn c) : isBlank c = false := by
  rcases h with h | rfl | rfl
  · exact (isPlain_iff.mp h).2.1
  · decide
  · decide

theorem GoesOn.ne_opener {c : Char} (h : GoesOn c) : c ≠ '(' := by
  rintro rfl
  rcases h with h | h | h
  all_goals exact absurd h (by decide)

theorem GoesOn.ne_closer {c : Char} (h : GoesOn c) : c ≠ ')' := by
  rintro rfl
  rcases h with h | h | h
  all_goals exact absurd h (by decide)

/-- Characters that go on with a word wait as they are, unless a parenthesis follows a colon. -/
theorem readBranches_goesOn (grammar : Option String) :
    ∀ {cs : List Char}, (∀ c ∈ cs, GoesOn c) → ∀ pos pending,
    ∃ pos' l, charsOf l = cs ∧ (∀ g ∈ l, g.escaped = false) ∧
      ∀ rest frames level, (':' ∈ cs → rest.head? ≠ some '(') →
        readBranches grammar pos (cs ++ rest) frames level pending =
          readBranches grammar pos' rest frames level (l.reverse ++ pending)
  | [], _, pos, _ => ⟨pos, [], rfl, fun _ hg => (List.not_mem_nil hg).elim, fun _ _ _ _ => rfl⟩
  | c :: cs, h, pos, pending => by
      obtain ⟨hc, hcs⟩ := List.forall_mem_cons.mp h
      obtain ⟨pos', l, hl, hplain, hread⟩ :=
        readBranches_goesOn grammar hcs (pos + 1) (⟨c, false, pos⟩ :: pending)
      refine ⟨pos', ⟨c, false, pos⟩ :: l, congrArg (c :: ·) hl,
        List.forall_mem_cons.mpr ⟨rfl, hplain⟩, fun rest frames level hrest => ?_⟩
      have hone : readBranches grammar pos (c :: (cs ++ rest)) frames level pending =
          readBranches grammar (pos + 1) (cs ++ rest) frames level (⟨c, false, pos⟩ :: pending) := by
        rcases hc with hc | rfl | rfl
        · exact readBranches_literal (isPlain_iff.mp hc).1
        · refine readBranches_colon ?_
          cases cs with
          | nil => exact hrest (List.mem_singleton_self ':')
          | cons d cs =>
              exact fun hhead => (hcs d List.mem_cons_self).ne_opener (Option.some.inj hhead)
        · exact readBranches_literal rfl
      rw [List.cons_append, hone,
        hread rest frames level fun hmem => hrest (List.mem_cons_of_mem c hmem), List.reverse_cons,
        List.append_assoc, List.singleton_append]

/-- Plain characters wait as they are. -/
theorem readBranches_plain {cs : List Char} (h : ∀ c ∈ cs, isPlain c = true) (pos : Nat)
    (pending : List Glyph) :
    ∃ pos' l, charsOf l = cs ∧
      (∀ g ∈ l, g.isGap = false ∧ ∀ c ∈ ['!', ':', '$'], g.marks c = false) ∧
      ∀ rest frames level, readBranches grammar pos (cs ++ rest) frames level pending =
        readBranches grammar pos' rest frames level (l.reverse ++ pending) := by
  obtain ⟨pos', l, rfl, -, hread⟩ :=
    readBranches_goesOn grammar (fun c hc => .inl (h c hc)) pos pending
  refine ⟨pos', l, rfl, fun g hg => ?_, fun rest frames level => hread rest frames level ?_⟩
  · have hplain := h g.char (List.mem_map_of_mem hg)
    exact ⟨by simp [Glyph.isGap, (isPlain_iff.mp hplain).2.1], Glyph.not_marks_of_isPlain hplain⟩
  · exact fun hmem => absurd (h ':' hmem) (by decide)

theorem tokenExpr_plain {l : List Glyph} (hne : l ≠ [])
    (hl : ∀ g ∈ l, ∀ c ∈ ['!', ':', '$'], g.marks c = false) :
    tokenExpr l = .ok (.plain (String.ofList (charsOf l))) := by
  have hcut : cutSuffix (l ++ []) = (l, {}) := cutSuffix_eq
    (fun g hg => ⟨hl g hg ':' (by decide), hl g hg '!' (by decide)⟩) (.converters .nil)
  rw [List.append_nil] at hcut
  cases l with
  | nil => exact absurd rfl hne
  | cons first rest =>
      have hfirst := hl first List.mem_cons_self '$' (by decide)
      simp [tokenExpr, hfirst, hcut, Expr.plain]

/-- A text of plain characters is one more word. -/
theorem Takes.plain {t : String} (ht : t ≠ "") (h : ∀ c ∈ t.toList, isPlain c = true) :
    Takes grammar t.toList (Level.push (.plain t)) := by
  intro pos rest frames level pending base hbase hsettled _
  obtain ⟨pos', l, hl, hglyphs, hread⟩ := readBranches_plain h pos pending
  have hne : l ≠ [] := by
    rintro rfl
    exact ht (String.toList_eq_nil_iff.mp hl.symm)
  have htoken := tokenExpr_plain hne fun g hg => (hglyphs g hg).2
  rw [hl, String.ofList_toList] at htoken
  exact ⟨pos', level, l.reverse ++ pending, hread rest frames level,
    Level.flush_token hne (fun g hg => (hglyphs g hg).1) htoken hsettled hbase⟩

theorem sourceText_of_plain {cs : List Char} (h : ∀ c ∈ cs, isPlain c = true) :
    sourceText cs = String.ofList cs := by
  have hescape : '\\' ∉ cs := fun hmem => by
    have hplain := h _ hmem
    revert hplain
    decide
  rw [sourceText, unescape_eq_self hescape,
    Text.trim_of_not_blank fun c hc => (isPlain_iff.mp (h c hc)).2.1]

/-! ## Tags -/

theorem shield_false (cs : List Char) : shield (fun _ => false) cs = cs := by
  simp [shield]

/-- Letters may be written between braces without backslashes. -/
theorem writable_tag {t : String} (ht : Lettered t) :
    Tag.Writable (fun _ => false) ⟨t, {}⟩ where
  name_ne := ht.ne
  trimmed := Text.trim_of_not_blank fun c hc => Text.not_isBlank_of_isLetter (ht.letters c hc)
  inert c hc := by
    have hne : ∀ d ∈ ['!', '\\', '\x7d', ':'], c ≠ d :=
      Text.forall_ne_of_isLetter (ht.letters c hc) (by decide)
    simp only [List.forall_mem_cons] at hne
    exact ⟨.inr ⟨hne.1, hne.2.1, hne.2.2.1⟩, .inr hne.2.2.2.1⟩
  suffix := ⟨by rintro _ ⟨⟩, by rintro _ ⟨⟩⟩

theorem toList_tag (t : String) :
    Tag.write (fun _ => false) ⟨t, {}⟩ = '\x7b' :: (t.toList ++ ['\x7d']) := by
  simp [Tag.write, Tag.body, Suffix.write, shield_false]

end Template

open Template

theorem Sentence.parse_of_readBranches {text : String} {items : List Expr} {origin : Option Origin}
    (h : readBranches (origin.bind Origin.intent) 0 text.toList [] {} [] = .ok [items]) :
    Sentence.parse text origin = .ok ⟨text, items⟩ := by
  have hitems : readItems (origin.bind Origin.intent) text.toList = .ok items := by
    rw [readItems, h]
    rfl
  rw [Sentence.parse, hitems]

/-- A sentence consists of the items that its text adds to an empty level. -/
theorem Sentence.parse_of_takes {text : String} {items : List Expr} {origin : Option Origin}
    (h : Takes (origin.bind Origin.intent) text.toList (Level.pushAll items)) :
    Sentence.parse text origin = .ok ⟨text, items⟩ := by
  obtain ⟨pos, level, pending, hread, hlevel⟩ :=
    h 0 [] [] {} [] {} rfl (by rintro _ ⟨⟩) (by rintro _ ⟨⟩)
  rw [List.append_nil, readBranches.eq_def _ pos] at hread
  simp only [hlevel, bind, Except.bind, pure, Except.pure, Level.branches_pushAll] at hread
  exact Sentence.parse_of_readBranches hread

end Utterance
