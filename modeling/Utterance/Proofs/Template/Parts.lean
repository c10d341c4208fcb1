import Mathlib.Data.List.TakeWhile
import Utterance.Proofs.Template.Writing

/-!
# Reading the parts of a template

Suffixes, tags, rule references and the tokens of words and slots are read by
functions of their own, and each is read back from its text here, with the text
that follows left over.  A literal suffix reaches its reader as glyphs:
`SuffixGlyphs` says which glyphs make up a suffix, wherever they come from, and
`cutSuffix_eq` cuts them off.
-/

namespace Utterance.Template

open Text (isBlank trim IsWord splitAt)

theorem drop_closed (text : List Char) (closer : Char) (rest : List Char) :
    (text ++ closer :: rest).drop (text.length + 1) = rest := by
  rw [← List.drop_drop, List.drop_left, List.drop_one, List.tail_cons]

/-! ## Substitutions -/

/-- What holds of a space and in all words holds in the words with spaces between them. -/
theorem forall_mem_joined {P : Char → Prop} {ws : List String} (hspace : P ' ')
    (h : ∀ w ∈ ws, ∀ c ∈ w.toList, P c) : ∀ c ∈ [' '].intercalate (ws.map String.toList), P c :=
  Text.forall_mem_intercalate (by simpa using hspace) (by simpa using h)

/-- The words between a pair of parentheses are the words that were written there. -/
theorem substitutionWords_written {ws : List String} (h : ∀ w ∈ ws, IsWord w.toList) :
    substitutionWords ('(' :: ([' '].intercalate (ws.map String.toList) ++ [')'])) = ws := by
  have htrim (cs : List Char) : trim ('(' :: (cs ++ [')'])) = '(' :: (cs ++ [')']) := by
    refine Text.trim_eq_self_iff.mpr ⟨by rintro _ ⟨⟩; rfl, ?_⟩
    rw [← List.cons_append, List.getLast?_concat]
    rintro _ ⟨⟩
    rfl
  rw [substitutionWords, htrim]
  simp only [List.getLast?_concat, beq_self_eq_true, if_pos, List.dropLast_concat,
    Text.words_intercalate_map h, Text.map_ofList_map_toList]

theorem words_eq_singleton_iff {cs t : List Char} (h : IsWord cs) (ht : t ⊆ cs) :
    (Text.words t).map String.ofList = [String.ofList cs] ↔ t = cs := by
  by_cases hne : t = []
  · subst hne
    have hnone : Text.words [] = [] := rfl
    rw [hnone]
    exact iff_of_false (List.cons_ne_nil _ _).symm h.1.symm
  · have hone : Text.words t = [t] :=
      Text.splitRuns_of_no_sep (fun c hc => h.2 c (ht hc)) (by simpa using hne)
    rw [hone, List.map_singleton, List.singleton_inj, String.ofList_inj]

/-- A word is its own substitution unless it is taken for one in parentheses. -/
theorem substitutionWords_eq_singleton_iff {cs : List Char} (h : IsWord cs) :
    substitutionWords cs = [String.ofList cs] ↔ cs.head? ≠ some '(' ∧ cs.getLast? ≠ some ')' := by
  have hclosed (ds : List Char) :
      (if ds.getLast? == some ')' then ds.dropLast else ds) <+: ds ∧
        ((if ds.getLast? == some ')' then ds.dropLast else ds) = ds ↔ ds.getLast? ≠ some ')') := by
    split_ifs with hlast
    · obtain ⟨before, rfl⟩ := List.getLast?_eq_some_iff.mp (beq_iff_eq.mp hlast)
      exact ⟨List.dropLast_prefix _, by simp⟩
    · exact ⟨List.prefix_refl ds, iff_of_true rfl (by simpa using hlast)⟩
  rw [substitutionWords, Text.trim_of_not_blank h.2]
  split
  next rest =>
    obtain ⟨hfront, -⟩ := hclosed rest
    rw [words_eq_singleton_iff h (List.subset_cons_of_subset _ hfront.subset)]
    refine iff_of_false (fun heq => ?_) fun hne => hne.1 rfl
    have hlength := hfront.length_le
    rw [heq, List.length_cons] at hlength
    omega
  next hne =>
    obtain ⟨hfront, hlast⟩ := hclosed cs
    rw [words_eq_singleton_iff h hfront.subset, hlast, iff_and_self]
    intro _ hhead
    obtain ⟨rest, rfl⟩ := List.head?_eq_some_iff.mp hhead
    exact hne rest rfl

/-! ## Suffixes as glyphs -/

theorem charsOf_append (l m : List Glyph) : charsOf (l ++ m) = charsOf l ++ charsOf m :=
  List.map_append

theorem charsOf_cons (g : Glyph) (l : List Glyph) : charsOf (g :: l) = g.char :: charsOf l := rfl

/-- The glyphs spell `cs` and none of them is the mark `c`. -/
structure Unmarked (c : Char) (cs : List Char) (l : List Glyph) : Prop where
  chars : charsOf l = cs
  marks : ∀ g ∈ l, g.marks c = false

/-- The glyphs of the converters `names`, each behind its mark. -/
inductive ConverterGlyphs : List String → List Glyph → Prop where
  | nil : ConverterGlyphs [] []
  | cons {mark name n ns l} (hmark : mark.marks '!' = true) (hne : n ≠ "")
      (hname : Unmarked '!' n.toList name) (hl : ConverterGlyphs ns l) :
      ConverterGlyphs (n :: ns) (mark :: name ++ l)

/-- The glyphs of a suffix. -/
inductive SuffixGlyphs : Suffix → List Glyph → Prop where
  | converters {ns l} (hl : ConverterGlyphs ns l) : SuffixGlyphs ⟨none, ns⟩ l
  | substitution {mark body cs ns l} (hmark : mark.marks ':' = true)
      (hbody : Unmarked '!' cs body) (hl : ConverterGlyphs ns l) :
      SuffixGlyphs ⟨some (substitutionWords cs), ns⟩ (mark :: body ++ l)

theorem Glyph.marks_of_marks {g : Glyph} {c d : Char} (h : g.marks c = true) (hne : c ≠ d) :
    g.marks d = false := by
  simp only [Glyph.marks, Bool.and_eq_true, beq_iff_eq] at h ⊢
  simp [h.2, hne]

theorem Glyph.char_of_marks {g : Glyph} {c : Char} (h : g.marks c = true) : g.char = c :=
  beq_iff_eq.mp (Bool.and_eq_true_iff.mp h).2

theorem Unmarked.append {c : Char} {cs ds : List Char} {l m : List Glyph} (hl : Unmarked c cs l)
    (hm : Unmarked c ds m) : Unmarked c (cs ++ ds) (l ++ m) :=
  ⟨by rw [charsOf_append, hl.chars, hm.chars],
    List.forall_mem_append.mpr ⟨hl.marks, hm.marks⟩⟩

/-- A glyph with a backslash before it is no mark. -/
theorem Glyph.not_marks {shielded : Char → Bool} {c : Char} {g : Glyph}
    (hescaped : g.escaped = shielded g.char) (h : shielded g.char = true ∨ g.char ≠ c) :
    g.marks c = false := by
  rcases h with h | h
  · simp [Glyph.marks, hescaped, h]
  · simp [Glyph.marks, h]

/-- The pieces between the marks of the converters: one before the first of them, and their names. -/
theorem ConverterGlyphs.splitAt_eq {ns : List String} {l : List Glyph} (h : ConverterGlyphs ns l) :
    ∃ pieces, splitAt (·.marks '!') l = [] :: pieces ∧ pieces.filter (!·.isEmpty) = pieces ∧
      (pieces.map fun p => String.ofList (charsOf p)) = ns := by
  induction h with
  | nil => exact ⟨[], rfl, rfl, rfl⟩
  | @cons mark name n ns l hmark hne hname _ ih =>
      obtain ⟨pieces, hsplit, hfilter, hmap⟩ := ih
      have hnamed : name.isEmpty = false := by
        cases name with
        | nil => exact absurd (String.toList_eq_nil_iff.mp hname.chars.symm) hne
        | cons _ _ => rfl
      refine ⟨name :: pieces, ?_, by simp [hnamed, hfilter], ?_⟩
      · rw [List.cons_append, Text.splitAt_cons_of_sep hmark, Text.splitAt_append hname.marks, hsplit,
          List.modifyHead_cons, List.append_nil]
      · rw [List.map_cons, hname.chars, String.ofList_toList, hmap]

theorem ConverterGlyphs.dropWhile_eq {ns : List String} {l : List Glyph} (h : ConverterGlyphs ns l) :
    l.dropWhile (!·.marks '!') = l := by
  cases h with
  | nil => rfl
  | cons hmark => simp [hmark]

theorem ConverterGlyphs.takeWhile_eq {ns : List String} {l : List Glyph} (h : ConverterGlyphs ns l) :
    l.takeWhile (!·.marks '!') = [] := by
  cases h with
  | nil => rfl
  | cons hmark => simp [hmark]

/-- What stands before the first mark is no part of the suffix. -/
theorem cutSuffix_append {host : List Glyph}
    (hhost : ∀ g ∈ host, g.marks ':' = false ∧ g.marks '!' = false) (l : List Glyph) :
    cutSuffix (host ++ l) = (host ++ (cutSuffix l).1, (cutSuffix l).2) := by
  have hcolon : ∀ g ∈ host, (!g.marks ':') = true := fun g hg => by rw [(hhost g hg).1]; rfl
  have hbang : ∀ g ∈ host, (!g.marks '!') = true := fun g hg => by rw [(hhost g hg).2]; rfl
  simp only [cutSuffix, List.takeWhile_append_of_pos hbang, List.dropWhile_append_of_pos hbang,
    List.takeWhile_append_of_pos hcolon, List.dropWhile_append_of_pos hcolon]

/-- The glyphs of a suffix are cut as that suffix. -/
theorem SuffixGlyphs.cutSuffix_eq {l : List Glyph} {s : Suffix} (hl : SuffixGlyphs s l) :
    cutSuffix l = ([], s) := by
  cases hl with
  | converters hns =>
      obtain ⟨pieces, hsplit, hfilter, hmap⟩ := hns.splitAt_eq
      simp [cutSuffix, hns.takeWhile_eq, hns.dropWhile_eq, hsplit, hfilter, hmap]
  | @substitution mark body cs ns l hmark hbody hns =>
      -- up to the converters nothing is the mark of one
      have hhead : ∀ g ∈ mark :: body, (!g.marks '!') = true :=
        List.forall_mem_cons.mpr ⟨by rw [Glyph.marks_of_marks hmark (by decide)]; rfl,
          fun g hg => by rw [hbody.marks g hg]; rfl⟩
      have htake : (mark :: body ++ l).takeWhile (!·.marks '!') = mark :: body := by
        rw [List.takeWhile_append_of_pos hhead, hns.takeWhile_eq, List.append_nil]
      have hdrop : (mark :: body ++ l).dropWhile (!·.marks '!') = l := by
        rw [List.dropWhile_append_of_pos hhead, hns.dropWhile_eq]
      obtain ⟨pieces, hsplit, hfilter, hmap⟩ := hns.splitAt_eq
      rw [List.cons_append] at htake hdrop ⊢
      simp [cutSuffix, htake, hdrop, hsplit, hfilter, hmap, hbody.chars, hmark]

/-- A suffix is cut off from what it follows. -/
theorem cutSuffix_eq {host l : List Glyph} {s : Suffix}
    (hhost : ∀ g ∈ host, g.marks ':' = false ∧ g.marks '!' = false) (hl : SuffixGlyphs s l) :
    cutSuffix (host ++ l) = (host, s) := by
  rw [cutSuffix_append hhost, hl.cutSuffix_eq, List.append_nil]

/-! ## Words and slots -/

theorem tokenExpr_word {host l : List Glyph} {s : Suffix} (hne : host ≠ [])
    (hhost : ∀ g ∈ host, g.escaped = true) (hl : SuffixGlyphs s l) :
    tokenExpr (host ++ l) = .ok (.word (String.ofList (charsOf host)) s none) := by
  have hmarks (c : Char) : ∀ g ∈ host, g.marks c = false := fun g hg => by
    simp [Glyph.marks, hhost g hg]
  have hcut := cutSuffix_eq (fun g hg => ⟨hmarks ':' g hg, hmarks '!' g hg⟩) hl
  cases host with
  | nil => exact absurd rfl hne
  | cons first rest =>
      rw [List.cons_append] at hcut ⊢
      simp [tokenExpr, hmarks '$' first List.mem_cons_self, hcut]

theorem tokenExpr_slot {mark : Glyph} {host l : List Glyph} {s : Suffix}
    (hmark : mark.marks '$' = true) (hne : host ≠ []) (hhost : ∀ g ∈ host, g.escaped = true)
    (hl : SuffixGlyphs s l) :
    tokenExpr (mark :: host ++ l) = .ok (.slot (String.ofList (charsOf (mark :: host ++ l)))
      (String.ofList (charsOf host)) s none) := by
  have hmarks (c : Char) : ∀ g ∈ host, g.marks c = false := fun g hg => by
    simp [Glyph.marks, hhost g hg]
  have hcut := cutSuffix_eq (fun g hg => ⟨hmarks ':' g hg, hmarks '!' g hg⟩) hl
  simp [tokenExpr, hmark, hcut, hne]

/-! ## Glyphs piece by piece -/

/-- `R text P` says that a reader takes `text` for glyphs with the property `P`, and leaves what follows:
so texts may be put together. -/
structure Piecewise (R : List Char → (List Glyph → Prop) → Prop) : Prop where
  nil : R [] (· = [])
  append {text more P Q} : R text P → R more Q →
    R (text ++ more) fun l => ∃ a b, P a ∧ Q b ∧ a ++ b = l
  imp {text P Q} : R text P → (∀ l, P l → Q l) → R text Q

namespace Piecewise

variable {R : List Char → (List Glyph → Prop) → Prop} {words name : List Char → List Char}

theorem converters (hR : Piecewise R)
    (hmark : R ['!'] fun l => ∃ g : Glyph, l = [g] ∧ g.marks '!' = true) {ns : List String}
    (h : ∀ n ∈ ns, n ≠ "" ∧ R (name n.toList) (Unmarked '!' n.toList)) :
    R (ns.flatMap fun n => '!' :: name n.toList) fun l =>
      ConverterGlyphs ns l ∧ charsOf l = ns.flatMap fun n => '!' :: n.toList := by
  induction ns with
  | nil => exact hR.imp hR.nil fun _ hl => hl ▸ ⟨.nil, rfl⟩
  | cons n ns ih =>
      rw [List.forall_mem_cons] at h
      obtain ⟨⟨hne, hn⟩, hns⟩ := h
      refine hR.imp (hR.append (hR.append hmark hn) (ih hns)) ?_
      rintro _ ⟨_, l, ⟨_, body, ⟨g, rfl, hg⟩, hbody, rfl⟩, ⟨hl, hchars⟩, rfl⟩
      refine ⟨.cons hg hne hbody hl, ?_⟩
      rw [List.singleton_append, charsOf_append, charsOf_cons, Glyph.char_of_marks hg, hbody.chars,
        hchars, List.flatMap_cons]

/-- A suffix is read as its glyphs where its substitution and the names of its converters are. -/
theorem suffix (hR : Piecewise R)
    (hmark : R ['!'] fun l => ∃ g : Glyph, l = [g] ∧ g.marks '!' = true) {s : Suffix}
    (hword : ∀ ws ∈ s.substitution, (∀ w ∈ ws, IsWord w.toList) ∧
      R (':' :: '(' :: words ([' '].intercalate (ws.map String.toList)) ++ [')']) fun l =>
        ∃ g body, g.marks ':' = true ∧
          Unmarked '!' ('(' :: ([' '].intercalate (ws.map String.toList) ++ [')'])) body ∧
          l = g :: body)
    (hname : ∀ n ∈ s.converters, n ≠ "" ∧ R (name n.toList) (Unmarked '!' n.toList)) :
    R (s.write words name) fun l => SuffixGlyphs s l ∧ charsOf l = s.write id id := by
  obtain ⟨substitution?, ns⟩ := s
  have hconverters := hR.converters hmark hname
  cases substitution? with
  | none => exact hR.imp hconverters fun _ ⟨hl, hchars⟩ => ⟨.converters hl, hchars⟩
  | some ws =>
      obtain ⟨hws, hbody⟩ := hword ws rfl
      refine hR.imp (hR.append hbody hconverters) ?_
      rintro _ ⟨_, l, ⟨g, body, hg, hbody, rfl⟩, ⟨hl, hchars⟩, rfl⟩
      have hread := SuffixGlyphs.substitution hg hbody hl
      rw [substitutionWords_written hws] at hread
      refine ⟨hread, ?_⟩
      rw [charsOf_append, hchars, charsOf_cons, Glyph.char_of_marks hg, hbody.chars]
      simp [Suffix.write]

end Piecewise

/-! ## Tags -/

/-- In a tag the text is read as glyphs with the property `P`. -/
def ReadInTag (text : List Char) (P : List Glyph → Prop) : Prop :=
  ∀ pos, ∃ l, P l ∧ ∀ rest, tagGlyphs pos (text ++ rest) =
    (tagGlyphs (pos + text.length) rest).map fun (more, n) => (l ++ more, text.length + n)

theorem piecewise_readInTag : Piecewise ReadInTag where
  nil _ := ⟨[], rfl, fun _ => by simp⟩
  append {text more _ _} h hmore pos := by
    obtain ⟨a, ha, hread⟩ := h pos
    obtain ⟨b, hb, hreadMore⟩ := hmore (pos + text.length)
    refine ⟨a ++ b, ⟨a, b, ha, hb, rfl⟩, fun rest => ?_⟩
    rw [List.append_assoc, hread, hreadMore, List.length_append, Option.map_map, Nat.add_assoc]
    simp [Function.comp_def, Nat.add_assoc]
  imp h himp pos :=
    have ⟨l, hl, hread⟩ := h pos
    ⟨l, himp l hl, hread⟩

namespace ReadInTag

theorem escaped (c : Char) :
    ReadInTag ['\\', c] fun l => ∃ g : Glyph, l = [g] ∧ g.char = c ∧ g.escaped = true := fun pos =>
  ⟨_, ⟨⟨c, true, pos + 1⟩, rfl, rfl, rfl⟩, fun rest => by simp [tagGlyphs, Nat.add_comm]⟩

theorem plain {c : Char} (hc : c ≠ '\\' ∧ c ≠ '\x7d') :
    ReadInTag [c] fun l => ∃ g : Glyph, l = [g] ∧ g.char = c ∧ g.escaped = false := fun pos =>
  ⟨_, ⟨⟨c, false, pos⟩, rfl, rfl, rfl⟩, fun rest => by
    rw [List.singleton_append, tagGlyphs]
    · simp [Nat.add_comm]
    · exact hc.2
    · rintro _ _ rfl; exact absurd rfl hc.1
    · rintro rfl; exact absurd rfl hc.1⟩

theorem mark {c : Char} (hc : c ≠ '\\' ∧ c ≠ '\x7d') :
    ReadInTag [c] fun l => ∃ g : Glyph, l = [g] ∧ g.marks c = true :=
  piecewise_readInTag.imp (plain hc) fun _ ⟨g, hl, hchar, hescaped⟩ =>
    ⟨g, hl, by simp [Glyph.marks, hchar, hescaped]⟩

variable {shielded : Char → Bool} {cs : List Char}

/-- The glyphs of a shielded text spell it, and only its characters without a backslash can be marks. -/
theorem shield (h : ∀ c ∈ cs, Inert shielded c) :
    ReadInTag (shield shielded cs) fun l =>
      charsOf l = cs ∧ ∀ g ∈ l, g.escaped = shielded g.char := by
  induction cs with
  | nil => exact piecewise_readInTag.imp piecewise_readInTag.nil fun _ hl => by simp [hl, charsOf]
  | cons c cs ih =>
      rw [List.forall_mem_cons] at h
      have hhead : ReadInTag (if shielded c then ['\\', c] else [c]) fun l =>
          ∃ g : Glyph, l = [g] ∧ g.char = c ∧ g.escaped = shielded c := by
        cases hc : shielded c with
        | true => exact escaped c
        | false =>
            have hplain := h.1.resolve_left (by simp [hc])
            exact plain hplain.2
      refine piecewise_readInTag.imp (piecewise_readInTag.append hhead (ih h.2)) ?_
      rintro _ ⟨_, b, ⟨g, rfl, rfl, hg⟩, ⟨rfl, hb⟩, rfl⟩
      refine ⟨rfl, ?_⟩
      rw [List.singleton_append, List.forall_mem_cons]
      exact ⟨hg, hb⟩

theorem shield_unmarked (h : ∀ c ∈ cs, Inert shielded c) :
    ReadInTag (Utterance.shield shielded cs) (Unmarked '!' cs) :=
  piecewise_readInTag.imp (shield h) fun _ hl => ⟨hl.1, fun g hg =>
    Glyph.not_marks (hl.2 g hg) ((h g.char (hl.1 ▸ List.mem_map_of_mem hg)).imp_right And.left)⟩

theorem substitution (h : ∀ c ∈ cs, Inert shielded c) :
    ReadInTag (':' :: '(' :: Utterance.shield shielded cs ++ [')']) fun l =>
      ∃ g body, g.marks ':' = true ∧ Unmarked '!' ('(' :: (cs ++ [')'])) body ∧ l = g :: body := by
  have hbody {c : Char} (hc : c ≠ '\\' ∧ c ≠ '\x7d') (hbang : c ≠ '!') :
      ReadInTag [c] (Unmarked '!' [c]) :=
    piecewise_readInTag.imp (mark hc) fun _ ⟨g, hl, hg⟩ => hl ▸ ⟨by
      simp [charsOf, Glyph.char_of_marks hg], by simpa using Glyph.marks_of_marks hg hbang⟩
  have hR := piecewise_readInTag
  refine hR.imp (hR.append (hR.append (hR.append (mark (c := ':') (by decide))
    (hbody (c := '(') (by decide) (by decide))) (shield_unmarked h))
    (hbody (c := ')') (by decide) (by decide))) ?_
  rintro _ ⟨_, e, ⟨_, d, ⟨_, b, ⟨g, rfl, hg⟩, hb, rfl⟩, hd, rfl⟩, he, rfl⟩
  exact ⟨g, _, hg, (hb.append hd).append he, by simp⟩

/-- The suffix of a tag is read as the glyphs of that suffix. -/
theorem suffix {s : Suffix} (h : s.Writable (Inert shielded) (Inert shielded)) :
    ReadInTag (s.write (Utterance.shield shielded) (Utterance.shield shielded))
      (SuffixGlyphs s) := by
  refine piecewise_readInTag.imp (piecewise_readInTag.suffix (mark (by decide)) ?_ ?_)
    fun _ hl => hl.1
  · exact fun ws hws => ⟨fun w hw => (h.word ws hws w hw).1,
      substitution (forall_mem_joined (.inr (by decide)) fun w hw => (h.word ws hws w hw).2)⟩
  · exact fun n hn => ⟨(h.name n hn).1, shield_unmarked (h.name n hn).2⟩

end ReadInTag

/-- A tag is read back, unless a suffix follows. -/
theorem readTag_body {shielded : Char → Bool} {t : Tag} (h : t.Writable shielded) (pos : Nat)
    {rest : List Char} (hrest : startsSuffix rest = false) :
    readTag pos (t.body shielded ++ '\x7d' :: rest) = .ok (t, (t.body shielded).length + 1) := by
  obtain ⟨_, ⟨host, l, ⟨hchars, hescaped⟩, hl, rfl⟩, hread⟩ :=
    piecewise_readInTag.append (ReadInTag.shield fun c hc => (h.inert c hc).1)
      (ReadInTag.suffix h.suffix) (pos + 1)
  have hhost : ∀ g ∈ host, g.marks ':' = false ∧ g.marks '!' = false := fun g hg =>
    have hchar := h.inert g.char (hchars ▸ List.mem_map_of_mem hg)
    ⟨Glyph.not_marks (hescaped g hg) hchar.2,
      Glyph.not_marks (hescaped g hg) (hchar.1.imp_right And.left)⟩
  have hdrop := drop_closed (t.body shielded) '\x7d' rest
  rw [Tag.body] at hdrop ⊢
  rw [readTag, hread, tagGlyphs]
  simp only [Option.map_some, hdrop, hrest, List.append_nil, cutSuffix_eq hhost hl, hchars, h.trimmed]
  simp [h.name_ne]

/-! ## Rule references -/

theorem unescape_eq_self {cs : List Char} (h : '\\' ∉ cs) : unescape cs = cs := by
  induction cs with
  | nil => rfl
  | cons c cs ih =>
      rw [List.mem_cons, not_or] at h
      rw [unescape]
      · rw [ih h.2]
      · rintro _ _ rfl; exact absurd rfl h.1
      · rintro rfl; exact absurd rfl h.1

/-- The name of a rule behind that of its grammar is still without blanks around it and without marks. -/
theorem refName_fullName {r : RuleRef} (h : r.Writable) : RefName r.fullName := by
  cases hgrammar : r.grammar with
  | none => simpa [RuleRef.fullName, hgrammar] using h.name
  | some g =>
      have hg := h.grammar g hgrammar
      have hfull : r.fullName = g ++ "." ++ r.name := by simp [RuleRef.fullName, hgrammar, hg.ne]
      have hchars : r.fullName.toList = g.toList ++ ['.'] ++ r.name.toList := by simp [hfull]
      refine ⟨by simp [hfull, h.name.ne], ?_, ?_, ?_⟩
      · rw [hchars]
        exact Text.trim_append hg.trimmed h.name.trimmed (by simpa using hg.ne)
          (by simpa using h.name.ne) _
      · simp [hchars, hg.not_closer, h.name.not_closer]
      · simp [hchars, hg.not_escape, h.name.not_escape]

/-- The last dot of a full name stands behind the grammar. -/
theorem cutAtLast?_fullName {r : RuleRef} (h : r.Writable) :
    Text.cutAtLast? '.' r.fullName.toList = r.grammar.map fun g => (g.toList, r.name.toList) := by
  cases hgrammar : r.grammar with
  | none => simpa [RuleRef.fullName, hgrammar] using Text.cutAtLast?_of_not_mem h.not_dot
  | some g =>
      have hchars : r.fullName.toList = g.toList ++ '.' :: r.name.toList := by
        simp [RuleRef.fullName, hgrammar, (h.grammar g hgrammar).ne]
      rw [hchars, Text.cutAtLast?_append h.not_dot]
      rfl

/-- A rule reference is read back, unless a suffix follows. -/
theorem readRule_fullName {r : RuleRef} (h : r.Writable) (grammar : Option String) (pos : Nat)
    {rest : List Char} (hrest : startsSuffix rest = false) :
    readRule grammar pos (r.fullName.toList ++ '>' :: rest) =
      .ok (.rule ⟨String.ofList r.write, r.name, r.grammar.or grammar⟩ none,
        r.fullName.toList.length + 1) := by
  have hfull := refName_fullName h
  have hopen : ∀ c ∈ r.fullName.toList, (c != '>') = true := fun c hc => by
    rw [bne_iff_ne]
    rintro rfl
    exact hfull.not_closer hc
  have hraw : (r.fullName.toList ++ '>' :: rest).takeWhile (· != '>') = r.fullName.toList := by
    simp [List.takeWhile_append_of_pos hopen]
  have hne : r.fullName.toList.isEmpty = false := by simpa using hfull.ne
  rw [readRule, hraw, List.drop_left]
  simp only [unescape_eq_self hfull.not_escape, hfull.trimmed, hne, hrest, cutAtLast?_fullName h]
  cases hgrammar : r.grammar <;> simp [RuleRef.write, RuleRef.fullName, hgrammar]

/-! ## Suffixes of sequences -/

/-- What follows does not go on with a suffix: there is nothing, or a blank or a bracket. -/
def Stops (rest : List Char) : Prop := ∀ c ∈ rest.head?, (isBlank c || isStructural c) = true

theorem Stops.startsSuffix {rest : List Char} (h : Stops rest) : startsSuffix rest = false := by
  cases rest with
  | nil => rfl
  | cons c rest =>
      have hc := h c rfl
      rw [Template.startsSuffix, Bool.or_eq_false_iff, beq_eq_false_iff_ne, beq_eq_false_iff_ne]
      constructor
      all_goals rintro rfl; exact absurd hc (by decide)

theorem throughParenthesis?_append {cs : List Char} (h : ∀ c ∈ cs, c ≠ ')') (rest : List Char) :
    throughParenthesis? (cs ++ ')' :: rest) = some (cs ++ [')']) := by
  have hopen : ∀ c ∈ cs, (c != ')') = true := fun c hc => bne_iff_ne.mpr (h c hc)
  simp [throughParenthesis?, List.takeWhile_append_of_pos hopen]

/-- The text of a suffix without parentheses goes up to the next mark. -/
theorem suffixText?_append {text rest : List Char} (htext : ∀ c ∈ text, endsSuffix c = false)
    (hrest : ∀ c ∈ rest.head?, endsSuffix c = true) (hopen : (text ++ rest).head? ≠ some '(') :
    suffixText? (text ++ rest) = some text := by
  have htake : (text ++ rest).takeWhile (fun c => !endsSuffix c) = text := by
    rw [List.takeWhile_append_of_pos fun c hc => by rw [htext c hc]; rfl]
    cases rest with
    | nil => simp
    | cons c rest => simp [hrest c rfl]
  rw [suffixText?.eq_def]
  split
  next heq => exact absurd (heq ▸ rfl) hopen
  next => exact congrArg some htake

/-- The text of a converter's suffix goes up to the next mark. -/
theorem suffixText?_name {n : String} (hne : n ≠ "") (hn : ∀ c ∈ n.toList, endsSuffix c = false)
    {rest : List Char} (hrest : ∀ c ∈ rest.head?, endsSuffix c = true) :
    suffixText? (n.toList ++ rest) = some n.toList := by
  refine suffixText?_append hn hrest fun hopen => ?_
  have hne : n.toList ≠ [] := mt String.toList_eq_nil_iff.mp hne
  rw [List.head?_append, List.head?_eq_some_head hne, Option.some_or] at hopen
  have hmem := Option.some.inj hopen ▸ List.head_mem hne
  exact absurd (hn '(' hmem) (by decide)

theorem converterNames_name {n : String} (hne : n ≠ "")
    (hn : ∀ c ∈ n.toList, endsSuffix c = false) : converterNames n.toList = [n.toList] := by
  have hchar (p : Char → Bool) (h : ∀ c, p c = true → endsSuffix c = true) :
      ∀ c ∈ n.toList, p c = false := fun c hc =>
    Bool.eq_false_iff.mpr fun hp => by simpa [hn c hc] using h c hp
  have hblank := hchar isBlank fun c hc => by simp [endsSuffix, hc]
  have hbang := hchar (· == '!') fun c hc => by simp [endsSuffix, beq_iff_eq.mp hc]
  have hopen := hchar (· == '(') fun c hc => by simp [endsSuffix, isStructural, beq_iff_eq.mp hc]
  have hclose := hchar (· == ')') fun c hc => by simp [endsSuffix, isStructural, beq_iff_eq.mp hc]
  have hname : n.toList.isEmpty = false := by simpa using hne
  rw [converterNames, Text.trim_of_not_blank hblank,
    Text.dropWhile_eq_self fun c hc => hopen c (List.mem_of_mem_head? hc),
    Text.dropEndWhile_eq_self fun c hc => hclose c (List.mem_of_mem_getLast? hc)]
  simp [hname, Text.splitAt_of_no_sep hbang]

theorem readSuffix_of_stops {rest : List Char} (h : Stops rest) (pos : Nat) (s : Suffix) :
    readSuffix pos rest s = .ok (s, 0) := by
  cases rest with
  | nil => rw [readSuffix]
  | cons c rest =>
      have hc : ¬(c == ':' || c == '!') = true := Bool.eq_false_iff.mp h.startsSuffix
      rw [readSuffix, if_neg hc]

theorem readSuffix_converters {ns : List String}
    (h : ∀ n ∈ ns, n ≠ "" ∧ ∀ c ∈ n.toList, endsSuffix c = false) {rest : List Char}
    (hrest : Stops rest) (pos : Nat) (s : Suffix) :
    readSuffix pos ((ns.flatMap fun n => '!' :: n.toList) ++ rest) s =
      .ok ({ s with converters := s.converters ++ ns },
        (ns.flatMap fun n => '!' :: n.toList).length) := by
  induction ns generalizing pos s with
  | nil => simp [readSuffix_of_stops hrest]
  | cons n ns ih =>
      rw [List.forall_mem_cons] at h
      obtain ⟨⟨hne, hn⟩, hns⟩ := h
      generalize hmore : (ns.flatMap fun n => '!' :: n.toList) ++ rest = more
      have hstop : ∀ c ∈ more.head?, endsSuffix c = true := by
        rw [← hmore]
        cases ns with
        | nil =>
            intro c hc
            rcases Bool.or_eq_true_iff.mp (hrest c hc) with hblank | hstructural
            · simp [endsSuffix, hblank]
            · simp [endsSuffix, hstructural]
        | cons _ _ => rintro _ ⟨⟩; rfl
      have hmark : ('!' == ':' || '!' == '!') = true := rfl
      have hcolon : ¬('!' == ':') = true := by decide
      rw [List.flatMap_cons, List.append_assoc, List.cons_append, readSuffix, if_pos hmark, hmore,
        suffixText?_name hne hn hstop]
      simp only [hcolon, converterNames_name hne hn, List.drop_left, ← hmore, ih hns]
      simp
      omega

/-- The suffix of a sequence is read back where it does not go on. -/
theorem readSuffix_write {s : Suffix} (h : s.Writable (· ≠ ')') (endsSuffix · = false))
    {rest : List Char} (hrest : Stops rest) (pos : Nat) :
    readSuffix pos (s.write id id ++ rest) {} = .ok (s, (s.write id id).length) := by
  obtain ⟨substitution?, ns⟩ := s
  cases substitution? with
  | none => exact readSuffix_converters h.name hrest pos {}
  | some ws =>
      have hws := h.word ws rfl
      have hopen : ∀ c ∈ '(' :: [' '].intercalate (ws.map String.toList), c ≠ ')' :=
        List.forall_mem_cons.mpr
          ⟨by decide, forall_mem_joined (by decide) fun w hw => (hws w hw).2⟩
      generalize htext : '(' :: ([' '].intercalate (ws.map String.toList) ++ [')']) = text
      have hwrite : Suffix.write id id ⟨some ws, ns⟩ =
          ':' :: (text ++ ns.flatMap fun n => '!' :: n.toList) := by
        simp [Suffix.write, ← htext]
      have hread (more : List Char) : suffixText? (text ++ more) = some text := by
        rw [← htext, ← List.cons_append, List.append_assoc, List.singleton_append]
        exact throughParenthesis?_append hopen more
      have hwords : substitutionWords text = ws :=
        htext ▸ substitutionWords_written fun w hw => (hws w hw).1
      have hmark : (':' == ':' || ':' == '!') = true := rfl
      rw [hwrite, List.cons_append, List.append_assoc, readSuffix, if_pos hmark, hread]
      simp only [beq_self_eq_true, if_pos, List.drop_left, hwords,
        readSuffix_converters h.name hrest]
      simp
      omega

end Utterance.Template
