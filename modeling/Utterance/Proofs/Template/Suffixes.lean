import Utterance.Proofs.Template.EmptyWords
import Utterance.Proofs.Template.Plain

/-!
# What suffixes mean

Two readers know the notation of suffixes.  The suffix of a word is cut out of the finished
token, at its marks (`cutSuffix`); that of a group is read ahead, one part after the other
(`readSuffix`).  They agree on a substitution, if there is one, and named converters behind it
(`exists_suffix_of_allNamed`), and on nothing else: the reader ahead stops at every mark, so a second
colon does not get into a text, and it stops with a fault where a converter has no name
(`Parted.of_readSuffix`).  So `Sentence.sameSuffix_iff` tells when a word and a group of it have the
same suffix.

A substitution of escaped characters is read as those characters, but a parenthesis that opens it
and one that closes it are taken off all the same (`Sentence.parse_escaped`).
-/

namespace Utterance

open Text (IsWord splitAt)

namespace Suffix

/-- None of the texts of the suffix holds the character. -/
structure Lacks (c : Char) (s : Suffix) : Prop where
  words : ∀ ws ∈ s.substitution, ∀ w ∈ ws, c ∉ w.toList
  names : ∀ n ∈ s.converters, c ∉ n.toList

theorem lacks_empty (c : Char) : Lacks c {} := ⟨by rintro _ ⟨⟩, by simp⟩

end Suffix

namespace Template

/-! ## Characters of suffixes -/

/-- A suffix may be made of marks, letters, digits and commas. -/
def isSuffixChar (c : Char) : Bool := c == ':' || c == '!' || c == ',' || Text.isAlphanumeric c

theorem goesOn_of_isSuffixChar {c : Char} (h : isSuffixChar c = true) : GoesOn c := by
  simp only [isSuffixChar, Bool.or_eq_true, beq_iff_eq] at h
  rcases h with ((rfl | rfl) | rfl) | h
  · exact .inr (.inl rfl)
  · exact .inr (.inr rfl)
  · exact .inl (by decide)
  · refine .inl ?_
    cases hdigit : c.isDigit with
    | true => exact isPlain_of_isDigit hdigit
    | false => exact isPlain_of_isLetter (by simp [Text.isLetter, h, hdigit])

theorem endsSuffix_eq_false_of_isPlain {c : Char} (h : isPlain c = true) : endsSuffix c = false := by
  have hne (d : Char) (hd : isPlain d = false) : (c == d) = false := by
    rw [beq_eq_false_iff_ne]
    rintro rfl
    rw [h] at hd
    cases hd
  simp [endsSuffix, isStructural, (isPlain_iff.mp h).2.1, hne ':' rfl, hne '!' rfl, hne '(' rfl,
    hne ')' rfl, hne '[' rfl, hne ']' rfl, hne '<' rfl, hne '>' rfl, hne '\x7b' rfl, hne '\x7d' rfl,
    hne '|' rfl]

/-- The text of a suffix, mark by mark. -/
inductive Parted : List Char → Prop where
  | nil : Parted []
  | colon {text more} (htext : ∀ c ∈ text, isPlain c = true) (hmore : Parted more) :
      Parted (':' :: (text ++ more))
  | bang {text more} (htext : ∀ c ∈ text, isPlain c = true) (hmore : Parted more) :
      Parted ('!' :: (text ++ more))

/-- No mark of a converter is followed by another one, or by nothing. -/
def AllNamed (cs : List Char) : Prop := [] ∉ (splitAt (· == '!') cs).tail

theorem Parted.eq_mark_of_head? {cs : List Char} (h : Parted cs) :
    ∀ c ∈ cs.head?, c = ':' ∨ c = '!' := by
  cases h with
  | nil => rintro _ ⟨⟩
  | colon =>
      rintro _ ⟨⟩
      exact .inl rfl
  | bang =>
      rintro _ ⟨⟩
      exact .inr rfl

theorem Parted.endsSuffix_head? {cs : List Char} (h : Parted cs) :
    ∀ c ∈ cs.head?, endsSuffix c = true := by
  cases h <;> rintro _ ⟨⟩ <;> rfl

/-- A text that goes on with a word is plain up to its suffix. -/
theorem exists_parted_of_goesOn {cs : List Char} (hcs : ∀ c ∈ cs, GoesOn c) :
    ∃ text more, cs = text ++ more ∧ (∀ c ∈ text, isPlain c = true) ∧ Parted more := by
  induction cs with
  | nil => exact ⟨[], [], rfl, by simp, .nil⟩
  | cons c cs ih =>
      obtain ⟨hc, hcs⟩ := List.forall_mem_cons.mp hcs
      obtain ⟨text, more, rfl, htext, hmore⟩ := ih hcs
      rcases hc with hc | rfl | rfl
      · exact ⟨c :: text, more, rfl, List.forall_mem_cons.mpr ⟨hc, htext⟩, hmore⟩
      · exact ⟨[], _, rfl, by simp, .colon htext hmore⟩
      · exact ⟨[], _, rfl, by simp, .bang htext hmore⟩

theorem not_mem_of_isPlain {text : List Char} (htext : ∀ c ∈ text, isPlain c = true) {c : Char}
    (hc : isPlain c = false) : c ∉ text := fun hmem => by
  rw [htext c hmem] at hc
  cases hc

theorem splitAt_append_of_isPlain {text : List Char} (htext : ∀ c ∈ text, isPlain c = true)
    (more : List Char) :
    splitAt (· == '!') (text ++ more) = (splitAt (· == '!') more).modifyHead (text ++ ·) :=
  Text.splitAt_append (fun _ hc => beq_eq_false_iff_ne.mpr fun heq =>
    not_mem_of_isPlain htext rfl (heq ▸ hc)) more

theorem allNamed_nil : AllNamed [] := by simp [AllNamed, splitAt]

theorem allNamed_colon_iff {text more : List Char} (htext : ∀ c ∈ text, isPlain c = true) :
    AllNamed (':' :: (text ++ more)) ↔ AllNamed more := by
  have hcolon : ∀ c ∈ [':'], (c == '!') = false := List.forall_mem_singleton.mpr rfl
  rw [AllNamed, AllNamed, ← List.singleton_append, Text.splitAt_append hcolon, List.tail_modifyHead,
    splitAt_append_of_isPlain htext, List.tail_modifyHead]

theorem allNamed_bang_iff {text more : List Char} (htext : ∀ c ∈ text, isPlain c = true)
    (hne : text ≠ []) : AllNamed ('!' :: (text ++ more)) ↔ AllNamed more := by
  rw [AllNamed, AllNamed, Text.splitAt_cons_of_sep rfl, List.tail_cons,
    splitAt_append_of_isPlain htext]
  cases hpieces : splitAt (· == '!') more with
  | nil => exact absurd hpieces (Text.splitAt_ne_nil _ more)
  | cons piece pieces => simp [hne]

/-! ## The suffix of a group -/

/-- A text that goes on with a word is the only word of its substitution. -/
theorem substitutionWords_goesOn {text : List Char} (h : ∀ c ∈ text, GoesOn c) :
    substitutionWords text = if text = [] then [] else [String.ofList text] := by
  split_ifs with hne
  · subst hne
    rfl
  · have hword : IsWord text := ⟨hne, fun c hc => (h c hc).not_isBlank⟩
    refine (substitutionWords_eq_singleton_iff hword).mpr ⟨fun hhead => ?_, fun hlast => ?_⟩
    · exact (h '(' (List.mem_of_mem_head? hhead)).ne_opener rfl
    · exact (h ')' (List.mem_of_mem_getLast? hlast)).ne_closer rfl

section

variable {text more : List Char} (htext : ∀ c ∈ text, isPlain c = true) (hmore : Parted more)

include htext hmore

theorem suffixText?_plain : suffixText? (text ++ more) = some text := by
  refine suffixText?_append (fun c hc => endsSuffix_eq_false_of_isPlain (htext c hc))
    hmore.endsSuffix_head? fun hopen => ?_
  cases text with
  | nil => cases hmore <;> cases hopen
  | cons c text =>
      obtain rfl : c = '(' := Option.some.inj hopen
      exact absurd (htext '(' List.mem_cons_self) (by decide)

theorem readSuffix_colon (pos : Nat) (s : Suffix) :
    readSuffix pos (':' :: (text ++ more)) s = (do
      let (s, n) ← readSuffix (pos + 1 + text.length) more
        { s with substitution := some (substitutionWords text) }
      pure (s, 1 + text.length + n)) := by
  have hmark : (':' == ':' || ':' == '!') = true := rfl
  rw [readSuffix, if_pos hmark, suffixText?_plain htext hmore]
  simp only [beq_self_eq_true, if_pos, List.drop_left]

theorem readSuffix_bang (hne : text ≠ []) (pos : Nat) (s : Suffix) :
    readSuffix pos ('!' :: (text ++ more)) s = (do
      let (s, n) ← readSuffix (pos + 1 + text.length) more
        { s with converters := s.converters ++ [String.ofList text] }
      pure (s, 1 + text.length + n)) := by
  have hmark : ('!' == ':' || '!' == '!') = true := rfl
  have hcolon : ¬('!' == ':') = true := by decide
  have hnames := converterNames_name (n := String.ofList text) (by simpa using hne) fun c hc =>
    endsSuffix_eq_false_of_isPlain (htext c (by simpa using hc))
  rw [String.toList_ofList] at hnames
  rw [readSuffix, if_pos hmark, suffixText?_plain htext hmore]
  simp only [if_neg hcolon, hnames, List.drop_left, List.map_singleton]

end

/-- A converter without a name is a fault. -/
theorem readSuffix_unnamed {more : List Char} (hmore : Parted more) (pos : Nat) (s : Suffix) :
    readSuffix pos ('!' :: more) s = .error ⟨.emptyConverter, pos⟩ := by
  have hmark : ('!' == ':' || '!' == '!') = true := rfl
  have hcolon : ¬('!' == ':') = true := by decide
  have hnone : ∀ c ∈ ([] : List Char), isPlain c = true := by simp
  have htext : suffixText? more = some [] := suffixText?_plain hnone hmore
  have hnames : converterNames [] = [] := rfl
  rw [readSuffix, if_pos hmark, htext]
  simp only [if_neg hcolon, hnames]

/-- What is read ahead is all of the text, every converter has a name, and no colon gets into the
texts. -/
theorem Parted.of_readSuffix {pos : Nat} {cs : List Char} {s s' : Suffix} {n : Nat} (hcs : Parted cs)
    (hs : s.Lacks ':') (h : readSuffix pos cs s = .ok (s', n)) :
    n = cs.length ∧ AllNamed cs ∧ s'.Lacks ':' := by
  induction hcs generalizing pos s n with
  | nil =>
      rw [readSuffix] at h
      cases h
      exact ⟨rfl, allNamed_nil, hs⟩
  | @colon text more htext hmore ih =>
      rw [readSuffix_colon htext hmore] at h
      obtain ⟨⟨s'', m⟩, hread, h⟩ := Except.bind_eq_ok_iff.mp h
      cases h
      have hwords : Suffix.Lacks ':' { s with substitution := some (substitutionWords text) } := by
        refine ⟨?_, hs.names⟩
        rintro _ ⟨⟩ w hw
        rw [substitutionWords_goesOn fun c hc => .inl (htext c hc)] at hw
        split_ifs at hw with hempty
        · cases hw
        · obtain rfl := List.mem_singleton.mp hw
          rw [String.toList_ofList]
          exact not_mem_of_isPlain htext rfl
      obtain ⟨rfl, hnamed, hlacks⟩ := ih hwords hread
      refine ⟨?_, (allNamed_colon_iff htext).mpr hnamed, hlacks⟩
      simp only [List.length_cons, List.length_append]
      omega
  | @bang text more htext hmore ih =>
      by_cases hne : text = []
      · subst hne
        rw [List.nil_append, readSuffix_unnamed hmore] at h
        cases h
      · rw [readSuffix_bang htext hmore hne] at h
        obtain ⟨⟨s'', m⟩, hread, h⟩ := Except.bind_eq_ok_iff.mp h
        cases h
        have hname : ':' ∉ (String.ofList text).toList := by
          rw [String.toList_ofList]
          exact not_mem_of_isPlain htext rfl
        have hnames : Suffix.Lacks ':' { s with
            converters := s.converters ++ [String.ofList text] } :=
          ⟨hs.words, List.forall_mem_append.mpr ⟨hs.names, List.forall_mem_singleton.mpr hname⟩⟩
        obtain ⟨rfl, hnamed, hlacks⟩ := ih hnames hread
        refine ⟨?_, (allNamed_bang_iff htext hne).mpr hnamed, hlacks⟩
        simp only [List.length_cons, List.length_append]
        omega

/-! ## The suffix of a word -/

theorem Parted.first_marks {first : Glyph} {rest : List Glyph} (h : Parted (charsOf (first :: rest)))
    (hfirst : first.escaped = false) : first.marks ':' = true ∨ first.marks '!' = true :=
  (h.eq_mark_of_head? first.char rfl).imp (fun hchar => Glyph.marks_iff.mpr ⟨hfirst, hchar⟩)
    fun hchar => Glyph.marks_iff.mpr ⟨hfirst, hchar⟩

theorem cutSuffix_plain {host : List Glyph} (hhost : ∀ g ∈ host, isPlain g.char = true)
    (l : List Glyph) : cutSuffix (host ++ l) = (host ++ (cutSuffix l).1, (cutSuffix l).2) := by
  have hmarks (g : Glyph) (hg : g ∈ host) := Glyph.not_marks_of_isPlain (hhost g hg)
  exact cutSuffix_append (fun g hg => ⟨hmarks g hg ':' (by decide), hmarks g hg '!' (by decide)⟩) l

theorem unmarked_of_not_mem {c : Char} {l : List Glyph} (hc : c ∉ charsOf l) :
    Unmarked c (charsOf l) l :=
  ⟨rfl, fun _ hg => Bool.eq_false_iff.mpr fun hmarks =>
    hc (Glyph.char_of_marks hmarks ▸ List.mem_map_of_mem hg)⟩

/-- The glyphs of named converters, none of which has a backslash. -/
theorem converterGlyphs_of_charsOf {ns : List String}
    (hns : ∀ n ∈ ns, n ≠ "" ∧ ∀ c ∈ n.toList, isPlain c = true) {l : List Glyph}
    (hl : charsOf l = ns.flatMap fun n => '!' :: n.toList) (hplain : ∀ g ∈ l, g.escaped = false) :
    ConverterGlyphs ns l := by
  induction ns generalizing l with
  | nil =>
      obtain rfl := List.map_eq_nil_iff.mp hl
      exact .nil
  | cons n ns ih =>
      obtain ⟨⟨hne, hname⟩, hns⟩ := List.forall_mem_cons.mp hns
      rw [List.flatMap_cons, List.cons_append] at hl
      obtain ⟨mark, l, rfl, hmark, hl⟩ := List.map_eq_cons_iff.mp hl
      obtain ⟨name, more, rfl, hchars, hmore⟩ := List.map_eq_append_iff.mp hl
      obtain ⟨hplainMark, hplain⟩ := List.forall_mem_cons.mp hplain
      obtain ⟨-, hplain⟩ := List.forall_mem_append.mp hplain
      have hchars : charsOf name = n.toList := hchars
      have hunmarked : Unmarked '!' (charsOf name) name :=
        unmarked_of_not_mem (not_mem_of_isPlain (hchars ▸ hname) rfl)
      rw [hchars] at hunmarked
      exact .cons (Glyph.marks_iff.mpr ⟨hplainMark, hmark⟩) hne hunmarked (ih hns hmore hplain)

/-- What stands behind the first mark of a converter gets into the name of one. -/
theorem exists_converter_of_mem {l : List Glyph} {g : Glyph}
    (hg : g ∈ l.dropWhile (!·.marks '!')) (hbang : g.marks '!' = false) :
    ∃ n ∈ (cutSuffix l).2.converters, g.char ∈ n.toList := by
  have hflatten : g ∈ (splitAt (·.marks '!') (l.dropWhile (!·.marks '!'))).flatten := by
    rw [Text.flatten_splitAt, List.mem_filter, hbang]
    exact ⟨hg, rfl⟩
  obtain ⟨piece, hpiece, hg⟩ := List.mem_flatten.mp hflatten
  have hne : (!piece.isEmpty) = true := by
    cases piece with
    | nil => cases hg
    | cons _ _ => rfl
  refine ⟨String.ofList (charsOf piece), ?_, ?_⟩
  · exact List.mem_map_of_mem (List.mem_filter.mpr ⟨hpiece, hne⟩)
  · rw [String.toList_ofList]
    exact List.mem_map_of_mem hg

/-- A second colon gets into the texts of the suffix. -/
theorem not_lacks_cutSuffix {first g : Glyph} {rest : List Glyph}
    (hfirst : first.marks ':' = true ∨ first.marks '!' = true)
    (hrest : ∀ g ∈ rest, GoesOn g.char) (hg : g ∈ rest) (hcolon : g.marks ':' = true) :
    ¬ (cutSuffix (first :: rest)).2.Lacks ':' := by
  intro hlacks
  have hchar := Glyph.char_of_marks hcolon
  have hconverters (hg : g ∈ (first :: rest).dropWhile (!·.marks '!')) : False := by
    obtain ⟨n, hn, hmem⟩ := exists_converter_of_mem hg (Glyph.marks_of_marks hcolon (by decide))
    exact hlacks.names n hn (hchar ▸ hmem)
  rcases hfirst with hfirst | hfirst
  · have hbang : first.marks '!' = false := Glyph.marks_of_marks hfirst (by decide)
    rw [← List.takeWhile_append_dropWhile (p := (!·.marks '!')) (l := rest), List.mem_append] at hg
    rcases hg with hg | hg
    · have hsubstitution : (cutSuffix (first :: rest)).2.substitution =
          some (substitutionWords (charsOf (rest.takeWhile (!·.marks '!')))) := by
        simp [cutSuffix, hfirst, hbang]
      have hmem : ':' ∈ charsOf (rest.takeWhile (!·.marks '!')) := hchar ▸ List.mem_map_of_mem hg
      have hwords : substitutionWords (charsOf (rest.takeWhile (!·.marks '!'))) =
          [String.ofList (charsOf (rest.takeWhile (!·.marks '!')))] := by
        rw [substitutionWords_goesOn, if_neg (List.ne_nil_of_mem hmem)]
        refine List.forall_mem_map.mpr fun g hg => hrest g ((List.takeWhile_prefix _).subset hg)
      refine hlacks.words _ hsubstitution _ (hwords ▸ List.mem_singleton_self _) ?_
      rwa [String.toList_ofList]
    · refine hconverters ?_
      rwa [List.dropWhile_cons_of_pos (by simp [hbang])]
  · refine hconverters ?_
    rw [List.dropWhile_cons_of_neg (by simp [hfirst])]
    exact List.mem_cons_of_mem first hg

/-! ## Where the readers agree -/

/-- A suffix without colons, all of whose converters have names, consists of these names. -/
theorem Parted.exists_names {cs : List Char} (h : Parted cs) (hcolon : ':' ∉ cs)
    (hnamed : AllNamed cs) :
    ∃ ns : List String, cs = (ns.flatMap fun n => '!' :: n.toList) ∧
      ∀ n ∈ ns, n ≠ "" ∧ ∀ c ∈ n.toList, isPlain c = true := by
  induction h with
  | nil => exact ⟨[], rfl, by simp⟩
  | colon => exact absurd List.mem_cons_self hcolon
  | @bang text more htext hmore ih =>
      have hmoreColon : ':' ∉ more := fun hmem =>
        hcolon (List.mem_cons_of_mem _ (List.mem_append_right _ hmem))
      have hne : text ≠ [] := by
        rintro rfl
        cases hmore with
        | nil => exact hnamed (by simp [splitAt])
        | colon => exact hmoreColon List.mem_cons_self
        | bang => exact hnamed (by simp [splitAt])
      obtain ⟨ns, rfl, hns⟩ := ih hmoreColon ((allNamed_bang_iff htext hne).mp hnamed)
      refine ⟨String.ofList text :: ns, by simp, List.forall_mem_cons.mpr ⟨?_, hns⟩⟩
      exact ⟨by simpa using hne, by simpa using htext⟩

theorem readSuffix_names {ns : List String}
    (hns : ∀ n ∈ ns, n ≠ "" ∧ ∀ c ∈ n.toList, isPlain c = true) (pos : Nat) (s : Suffix) :
    readSuffix pos (ns.flatMap fun n => '!' :: n.toList) s =
      .ok ({ s with converters := s.converters ++ ns },
        (ns.flatMap fun n => '!' :: n.toList).length) := by
  have hstops : Stops [] := by rintro _ ⟨⟩
  have hread := readSuffix_converters
    (fun n hn => ⟨(hns n hn).1, fun c hc => endsSuffix_eq_false_of_isPlain ((hns n hn).2 c hc)⟩)
    hstops pos s
  rwa [List.append_nil] at hread

/-- Both readers read a substitution, if there is one, and named converters behind it as the same
suffix. -/
theorem exists_suffix_of_allNamed {cs : List Char} (h : Parted cs) (hcolon : ':' ∉ cs.tail)
    (hnamed : AllNamed cs) :
    ∃ s, (∀ pos, readSuffix pos cs {} = .ok (s, cs.length)) ∧
      ∀ l, charsOf l = cs → (∀ g ∈ l, g.escaped = false) → cutSuffix l = ([], s) := by
  by_cases hnone : ':' ∈ cs
  · cases h with
    | nil => cases hnone
    | @colon text more htext hmore =>
        obtain ⟨ns, rfl, hns⟩ := hmore.exists_names
          (fun hmem => hcolon (List.mem_append_right _ hmem)) ((allNamed_colon_iff htext).mp hnamed)
        refine ⟨⟨some (substitutionWords text), ns⟩, fun pos => ?_, fun l hl hplain => ?_⟩
        · rw [readSuffix_colon htext hmore, readSuffix_names hns, List.length_cons,
            List.length_append, Nat.add_right_comm, Nat.add_comm 1]
          rfl
        · obtain ⟨mark, l, rfl, hmark, hl⟩ := List.map_eq_cons_iff.mp hl
          obtain ⟨body, more, rfl, rfl, hmore⟩ := List.map_eq_append_iff.mp hl
          obtain ⟨hplainMark, hplain⟩ := List.forall_mem_cons.mp hplain
          obtain ⟨-, hplain⟩ := List.forall_mem_append.mp hplain
          have hbody : Unmarked '!' (charsOf body) body :=
            unmarked_of_not_mem (not_mem_of_isPlain htext rfl)
          exact (SuffixGlyphs.substitution (Glyph.marks_iff.mpr ⟨hplainMark, hmark⟩) hbody
            (converterGlyphs_of_charsOf hns hmore hplain)).cutSuffix_eq
    | bang => exact absurd ((List.mem_cons.mp hnone).resolve_left (by decide)) hcolon
  · obtain ⟨ns, rfl, hns⟩ := h.exists_names hnone hnamed
    exact ⟨⟨none, ns⟩, fun pos => readSuffix_names hns pos {}, fun l hl hplain =>
      (SuffixGlyphs.converters (converterGlyphs_of_charsOf hns hl hplain)).cutSuffix_eq⟩

/-- The two readers read the same from a text that starts with a mark exactly where it has no second
colon and no converter without a name. -/
theorem readSuffix_eq_cutSuffix_iff {cs : List Char} (hcs : ∀ c ∈ cs, GoesOn c) (h : Parted cs)
    {l : List Glyph} (hl : charsOf l = cs) (hplain : ∀ g ∈ l, g.escaped = false) (pos : Nat) :
    readSuffix pos cs {} = .ok ((cutSuffix l).2, cs.length) ↔ ':' ∉ cs.tail ∧ AllNamed cs := by
  constructor
  · intro hread
    obtain ⟨-, hnamed, hlacks⟩ := h.of_readSuffix (Suffix.lacks_empty ':') hread
    refine ⟨fun hmem => ?_, hnamed⟩
    cases l with
    | nil =>
        obtain rfl := hl
        cases hmem
    | cons first rest =>
        obtain rfl := hl
        obtain ⟨hplainFirst, hplain⟩ := List.forall_mem_cons.mp hplain
        obtain ⟨g, hg, hchar⟩ := List.mem_map.mp hmem
        have hrest : ∀ g ∈ rest, GoesOn g.char := fun g hg =>
          hcs g.char (List.mem_cons_of_mem _ (List.mem_map_of_mem hg))
        exact not_lacks_cutSuffix (h.first_marks hplainFirst) hrest hg
          (Glyph.marks_iff.mpr ⟨hplain g hg, hchar⟩) hlacks
  · rintro ⟨hcolon, hnamed⟩
    obtain ⟨t, hread, hcut⟩ := exists_suffix_of_allNamed h hcolon hnamed
    rw [hcut l hl hplain, hread]

/-- Behind plain characters there is no suffix exactly where there are only converters without
names. -/
theorem cutSuffix_eq_empty_iff_of_plain {text more : List Char}
    (htext : ∀ c ∈ text, isPlain c = true) (hmore : Parted more) {l : List Glyph}
    (hl : charsOf l = text ++ more) (hplain : ∀ g ∈ l, g.escaped = false) :
    (cutSuffix l).2 = {} ↔ ∀ c ∈ more, c = '!' := by
  obtain ⟨host, l, rfl, rfl, rfl⟩ := List.map_eq_append_iff.mp hl
  obtain ⟨-, hplain⟩ := List.forall_mem_append.mp hplain
  have hhost : tokenHost l = [] := by
    cases l with
    | nil => rfl
    | cons first rest =>
        exact tokenHost_cons_eq_nil_iff.mpr (hmore.first_marks (hplain first List.mem_cons_self))
  rw [cutSuffix_plain fun g hg => htext g.char (List.mem_map_of_mem hg),
    cutSuffix_eq_empty_iff hhost, isBare_iff, List.forall_mem_map]
  exact forall₂_congr fun g hg => by rw [Glyph.marks_iff, and_iff_right (hplain g hg)]

/-! ## Words and groups -/

/-- Plain characters and what goes on with them are a word. -/
theorem tokenExpr_goesOn {host : List Glyph} (hne : host ≠ [])
    (hhost : ∀ g ∈ host, isPlain g.char = true) (l : List Glyph) :
    tokenExpr (host ++ l) =
      .ok (.word (String.ofList (charsOf (host ++ (cutSuffix l).1))) (cutSuffix l).2 none) := by
  have hcut := cutSuffix_plain hhost l
  cases host with
  | nil => exact absurd rfl hne
  | cons first rest =>
      have hslot := Glyph.not_marks_of_isPlain (hhost first List.mem_cons_self) '$' (by decide)
      rw [List.cons_append] at hcut ⊢
      simp [tokenExpr, hslot, hcut]

/-- What goes on with a word is read as one token. -/
theorem exists_token_of_goesOn (grammar : Option String) {cs : List Char} (hne : cs ≠ [])
    (hcs : ∀ c ∈ cs, GoesOn c) (pos : Nat) (level : Level) :
    ∃ l, charsOf l = cs ∧ (∀ g ∈ l, g.escaped = false) ∧ ∀ e, tokenExpr l = .ok e →
      readBranches grammar pos cs [] level [] = .ok (level.push e).branches := by
  obtain ⟨pos', l, rfl, hplain, hread⟩ := readBranches_goesOn grammar hcs pos []
  refine ⟨l, rfl, hplain, fun e he => ?_⟩
  have hgaps : ∀ g ∈ l, g.isGap = false := fun g hg => by
    simp [Glyph.isGap, (hcs g.char (List.mem_map_of_mem hg)).not_isBlank]
  have hflush := Level.flush_token (mt (congrArg charsOf) hne) hgaps he (by rintro _ ⟨⟩)
    (Level.flush_nil level)
  have hread := hread [] [] level fun _ => by simp
  rw [List.append_nil] at hread
  rw [hread, readBranches.eq_def]
  simp only [hflush]
  rfl

/-- A group of one plain word, with the suffix that is read behind it. -/
theorem readBranches_group (grammar : Option String) {w : String} (hne : w ≠ "")
    (hw : ∀ c ∈ w.toList, isPlain c = true) (cs : List Char) :
    ∃ pos, readBranches grammar 0 ('(' :: (w.toList ++ ')' :: cs)) [] {} [] = (do
      let (s, n) ← readSuffix pos cs {}
      readBranches grammar (pos + n) (cs.drop n) []
        (Level.push (.seq .group w [.plain w] s none) {}) []) := by
  let frame : Frame := ⟨.round, 0, w.toList ++ ')' :: cs, {}⟩
  have hopen : readBranches grammar 0 ('(' :: (w.toList ++ ')' :: cs)) [] {} [] =
      readBranches grammar 1 (w.toList ++ ')' :: cs) [frame] {} [] :=
    readBranches_opening .round (Level.flush_nil {})
  have hstops : Stops (')' :: cs) := by rintro _ ⟨⟩; rfl
  have htakes : Takes grammar w.toList _ := Takes.plain hne hw
  obtain ⟨pos, level, pending, hread, hflush⟩ :=
    htakes 1 (')' :: cs) [frame] {} [] {} (Level.flush_nil {}) (by rintro _ ⟨⟩) hstops
  have hitems : frame.bracket.sequence frame.pos (Level.push (.plain w) {}).branches =
      .ok (.group, [.plain w]) := rfl
  have hinner : sourceText (frame.inner.take (frame.inner.length - (cs.length + 1))) = w := by
    have htake : frame.inner.take (frame.inner.length - (cs.length + 1)) = w.toList := by
      simp [frame]
    rw [htake, sourceText_of_plain hw, String.ofList_toList]
  have hclose : readBranches grammar pos (')' :: cs) [frame] level pending = _ :=
    readBranches_closer (f := frame) hflush hitems
  rw [hinner] at hclose
  exact ⟨pos + 1, by rw [hopen, hread, hclose]⟩

/-- The first items of two sentences, a word and a group, have the same suffix, or both texts are
rejected. -/
def SameSuffix : Except SyntaxError Sentence → Except SyntaxError Sentence → Prop
  | .error _, .error _ => True
  | .ok ⟨_, .word _ s _ :: _⟩, .ok ⟨_, .seq .group _ _ s' _ :: _⟩ => s = s'
  | _, _ => False

/-- The text is a substitution, if there is one, and named converters behind it.  If a plain text
comes first, there are only converters without names behind it. -/
def isReadAlike (cs : List Char) : Bool :=
  if startsSuffix cs then !cs.tail.contains ':' && !(splitAt (· == '!') cs).tail.contains []
  else (cs.dropWhile fun c => !(c == ':' || c == '!')).all (· == '!')

theorem isReadAlike_of_parted {cs : List Char} (h : Parted cs) :
    isReadAlike cs = true ↔ ':' ∉ cs.tail ∧ AllNamed cs := by
  cases h with
  | nil => exact iff_of_true rfl ⟨by simp, allNamed_nil⟩
  | colon => simp [isReadAlike, startsSuffix, AllNamed]
  | bang => simp [isReadAlike, startsSuffix, AllNamed]

theorem isReadAlike_of_plain {text more : List Char} (hne : text ≠ [])
    (htext : ∀ c ∈ text, isPlain c = true) (hmore : Parted more) :
    isReadAlike (text ++ more) = true ↔ ∀ c ∈ more, c = '!' := by
  have hmark {c : Char} (hc : isPlain c = true) : (!(c == ':' || c == '!')) = true := by
    rw [Bool.not_eq_true', Bool.or_eq_false_iff, beq_eq_false_iff_ne, beq_eq_false_iff_ne]
    constructor <;> rintro rfl <;> cases hc
  have hdrop : (text ++ more).dropWhile (fun c => !(c == ':' || c == '!')) = more := by
    rw [List.dropWhile_append_of_pos fun c hc => hmark (htext c hc)]
    exact Text.dropWhile_eq_self fun c hc => by
      rcases hmore.eq_mark_of_head? c hc with rfl | rfl <;> rfl
  have hstart : startsSuffix (text ++ more) = false := by
    cases text with
    | nil => exact absurd rfl hne
    | cons c text => simpa [startsSuffix] using hmark (htext c List.mem_cons_self)
  rw [isReadAlike, if_neg (by simp [hstart]), hdrop]
  simp

end Template

open Template

namespace Sentence

variable {w s : String} {origin : Option Origin}

/-- A word is accepted with whatever goes on with it. -/
theorem exists_parse_word (hne : w ≠ "") (hw : ∀ c ∈ w.toList, isPlain c = true)
    (hs : ∀ c ∈ s.toList, GoesOn c) (origin : Option Origin) :
    ∃ l x, charsOf l = s.toList ∧ (∀ g ∈ l, g.escaped = false) ∧
      Sentence.parse (w ++ s) origin = .ok ⟨w ++ s, [.word x (cutSuffix l).2 none]⟩ := by
  have hchars : (w ++ s).toList = w.toList ++ s.toList := String.toList_append
  have htext : (w ++ s).toList ≠ [] := by simp [hne]
  have hall : ∀ c ∈ (w ++ s).toList, GoesOn c := by
    rw [hchars]
    exact List.forall_mem_append.mpr ⟨fun c hc => .inl (hw c hc), hs⟩
  obtain ⟨l, hl, hplain, hread⟩ :=
    exists_token_of_goesOn (origin.bind Origin.intent) htext hall 0 {}
  rw [hchars] at hl
  obtain ⟨host, more, rfl, hhost, hmore⟩ := List.map_eq_append_iff.mp hl
  have hhostNe : host ≠ [] := by
    rintro rfl
    exact hne (String.toList_eq_nil_iff.mp hhost.symm)
  have htoken := tokenExpr_goesOn hhostNe
    (fun g hg => hw g.char (hhost ▸ List.mem_map_of_mem hg)) more
  exact ⟨more, _, hmore, (List.forall_mem_append.mp hplain).2,
    parse_of_readBranches (hread _ htoken)⟩

theorem toList_group (w s : String) :
    ("(" ++ w ++ ")" ++ s).toList = '(' :: (w.toList ++ ')' :: s.toList) := by
  simp

/-- Behind a group a suffix that starts with a mark is read to its end, or the text is rejected. -/
theorem exists_parse_group_of_parted (hne : w ≠ "") (hw : ∀ c ∈ w.toList, isPlain c = true)
    (hs : Parted s.toList) (origin : Option Origin) :
    ∃ pos,
      (∀ t n, readSuffix pos s.toList {} = .ok (t, n) →
        Sentence.parse ("(" ++ w ++ ")" ++ s) origin =
          .ok ⟨"(" ++ w ++ ")" ++ s, [.seq .group w [.plain w] t none]⟩) ∧
      ∀ fault, readSuffix pos s.toList {} = .error fault →
        ∃ e, Sentence.parse ("(" ++ w ++ ")" ++ s) origin = .error e := by
  obtain ⟨pos, hgroup⟩ := readBranches_group (origin.bind Origin.intent) hne hw s.toList
  rw [← toList_group] at hgroup
  refine ⟨pos, fun t n hread => parse_of_readBranches ?_, fun fault hread => ?_⟩
  · obtain ⟨rfl, -, -⟩ := hs.of_readSuffix (Suffix.lacks_empty ':') hread
    rw [hgroup, hread]
    simp only [bind, Except.bind, List.drop_length]
    rw [readBranches.eq_def]
    rfl
  · rw [hread] at hgroup
    exact ⟨_, by rw [Sentence.parse, readItems, hgroup]; rfl⟩

/-- Plain characters behind a group are a word of their own. -/
theorem exists_parse_group_of_plain {text more : List Char} (hne : w ≠ "")
    (hw : ∀ c ∈ w.toList, isPlain c = true) (hs : s.toList = text ++ more) (htextNe : text ≠ [])
    (htext : ∀ c ∈ text, isPlain c = true) (hmore : ∀ c ∈ more, GoesOn c) (origin : Option Origin) :
    ∃ e, Sentence.parse ("(" ++ w ++ ")" ++ s) origin =
      .ok ⟨"(" ++ w ++ ")" ++ s, [.seq .group w [.plain w] {} none, e]⟩ := by
  obtain ⟨pos, hgroup⟩ := readBranches_group (origin.bind Origin.intent) hne hw s.toList
  rw [← toList_group, hs] at hgroup
  have hnone : readSuffix pos (text ++ more) {} = .ok ({}, 0) := by
    cases text with
    | nil => exact absurd rfl htextNe
    | cons c text =>
        have hmark : ¬(c == ':' || c == '!') = true := by
          rw [Bool.or_eq_true, beq_iff_eq, beq_iff_eq]
          rintro (rfl | rfl) <;> exact absurd (htext _ List.mem_cons_self) (by decide)
        rw [List.cons_append, readSuffix, if_neg hmark]
  have hall : ∀ c ∈ text ++ more, GoesOn c :=
    List.forall_mem_append.mpr ⟨fun c hc => .inl (htext c hc), hmore⟩
  obtain ⟨l, hl, -, hread⟩ := exists_token_of_goesOn (origin.bind Origin.intent)
    (List.append_ne_nil_of_left_ne_nil htextNe more) hall (pos + 0)
    (Level.push (.seq .group w [.plain w] {} none) {})
  obtain ⟨host, l, rfl, rfl, -⟩ := List.map_eq_append_iff.mp hl
  have hhostNe : host ≠ [] := mt (congrArg charsOf) htextNe
  obtain ⟨e, htoken⟩ : ∃ e, tokenExpr (host ++ l) = .ok e :=
    ⟨_, tokenExpr_goesOn hhostNe (fun g hg => htext g.char (List.mem_map_of_mem hg)) l⟩
  refine ⟨e, parse_of_readBranches ?_⟩
  rw [hgroup, hnone]
  exact hread e htoken

/-- A word and a group of it have the same suffix exactly where the two readers agree. -/
theorem sameSuffix_iff (hw : Lettered w) (hs : ∀ c ∈ s.toList, isSuffixChar c = true)
    (origin : Option Origin) :
    SameSuffix (Sentence.parse (w ++ s) origin) (Sentence.parse ("(" ++ w ++ ")" ++ s) origin) ↔
      isReadAlike s.toList = true := by
  have hplain : ∀ c ∈ w.toList, isPlain c = true := fun c hc => isPlain_of_isLetter (hw.letters c hc)
  have hgoesOn : ∀ c ∈ s.toList, GoesOn c := fun c hc => goesOn_of_isSuffixChar (hs c hc)
  obtain ⟨l, x, hl, hunescaped, hword⟩ := exists_parse_word hw.ne hplain hgoesOn origin
  obtain ⟨text, more, hcut, htext, hmore⟩ := exists_parted_of_goesOn hgoesOn
  rw [hword]
  by_cases htextNe : text = []
  · subst htextNe
    rw [List.nil_append] at hcut
    subst hcut
    obtain ⟨pos, hgroup, hrejected⟩ := exists_parse_group_of_parted hw.ne hplain hmore origin
    rw [isReadAlike_of_parted hmore, ← readSuffix_eq_cutSuffix_iff hgoesOn hmore hl hunescaped pos]
    cases hread : readSuffix pos s.toList {} with
    | error fault =>
        obtain ⟨e, he⟩ := hrejected fault hread
        rw [he]
        exact iff_of_false id (by rintro ⟨⟩)
    | ok r =>
        obtain ⟨t, n⟩ := r
        obtain ⟨rfl, -, -⟩ := hmore.of_readSuffix (Suffix.lacks_empty ':') hread
        rw [hgroup t _ hread]
        exact ⟨fun heq => heq ▸ rfl, fun heq => (congrArg Prod.fst (Except.ok.inj heq)).symm⟩
  · obtain ⟨e, hgroup⟩ := exists_parse_group_of_plain hw.ne hplain hcut htextNe htext
      (fun c hc => hgoesOn c (hcut ▸ List.mem_append_right text hc)) origin
    rw [hgroup, hcut, isReadAlike_of_plain htextNe htext hmore,
      ← cutSuffix_eq_empty_iff_of_plain htext hmore (hl.trans hcut) hunescaped]
    exact Iff.rfl

theorem sameSuffix_lamp :
    Lettered "lamp" ∧ (∀ c ∈ ":it!upper".toList, isSuffixChar c = true) ∧
      SameSuffix (Sentence.parse ("lamp" ++ ":it!upper") none)
        (Sentence.parse ("(" ++ "lamp" ++ ")" ++ ":it!upper") none) := by
  have hw : Lettered "lamp" := by decide
  have hs : ∀ c ∈ ":it!upper".toList, isSuffixChar c = true := List.all_eq_true.mp rfl
  exact ⟨hw, hs, (sameSuffix_iff hw hs none).mpr (by decide)⟩

/-- A word may have a converter without a name, and a second colon in its substitution; a group may
not. -/
theorem not_forall_sameSuffix :
    (¬ ∀ w s : String, Lettered w → (∀ c ∈ s.toList, isSuffixChar c = true) →
      SameSuffix (Sentence.parse (w ++ s) none) (Sentence.parse ("(" ++ w ++ ")" ++ s) none)) ∧
      Sentence.parse "a!" none = .ok ⟨"a!", [.plain "a"]⟩ ∧
      Sentence.parse "(a)!" none = .error ⟨.emptyConverter, "(a)!", 4, none, none⟩ ∧
      Sentence.parse "a:b:c" none = .ok ⟨"a:b:c", [.word "a" ⟨some ["b:c"], []⟩ none]⟩ ∧
      Sentence.parse "(a):b:c" none =
        .ok ⟨"(a):b:c", [.seq .group "a" [.plain "a"] ⟨some ["c"], []⟩ none]⟩ := by
  have hword : Sentence.parse "a!" none = .ok ⟨"a!", [.plain "a"]⟩ := by cbv
  have hgroup : Sentence.parse "(a)!" none = .error ⟨.emptyConverter, "(a)!", 4, none, none⟩ := by cbv
  refine ⟨fun h => ?_, hword, hgroup, by cbv, by cbv⟩
  have hsame := h "a" "!" (by decide) (List.all_eq_true.mp rfl)
  rw [show "a" ++ "!" = "a!" from rfl, hword, show "(" ++ "a" ++ ")" ++ "!" = "(a)!" from rfl,
    hgroup] at hsame
  exact hsame

/-! ## Escaped substitutions -/

/-- A word with a substitution, all characters but the colon behind a backslash. -/
def escapedText (w s : String) : String :=
  String.ofList (escape w.toList ++ ':' :: escape s.toList)

/-- A word and its substitution are read as they are when all their characters are escaped, but for
one parenthesis that opens the substitution and one that closes it. -/
theorem parse_escaped (hw : w ≠ "") (hs : IsWord s.toList) (origin : Option Origin) :
    Sentence.parse (escapedText w s) origin =
        .ok ⟨escapedText w s, [.word w ⟨some (substitutionWords s.toList), []⟩ none]⟩ ∧
      (substitutionWords s.toList = [s] ↔
        s.toList.head? ≠ some '(' ∧ s.toList.getLast? ≠ some ')') := by
  constructor
  · refine parse_of_takes ?_
    rw [escapedText, String.toList_ofList]
    exact Takes.escaped hw (ReadInWord.escaped_substitution hs.1)
  · have hone := substitutionWords_eq_singleton_iff hs
    rwa [String.ofList_toList] at hone

theorem parse_escaped_marks :
    "a (b" ≠ "" ∧ IsWord "x|:!(y".toList ∧ Sentence.parse "\\a\\ \\(\\b:\\x\\|\\:\\!\\(\\y" none =
      .ok ⟨"\\a\\ \\(\\b:\\x\\|\\:\\!\\(\\y", [.word "a (b" ⟨some ["x|:!(y"], []⟩ none]⟩ := by
  have hw : "a (b" ≠ "" := by decide
  have hs : IsWord "x|:!(y".toList := by decide
  have htext : "\\a\\ \\(\\b:\\x\\|\\:\\!\\(\\y" = escapedText "a (b" "x|:!(y" := by decide
  obtain ⟨hparse, hone⟩ := parse_escaped hw hs none
  rw [hone.mpr (by decide)] at hparse
  exact ⟨hw, hs, htext ▸ hparse⟩

/-- An escaped parenthesis alone is taken for one around a substitution without words. -/
theorem parse_escaped_parenthesis :
    IsWord "(".toList ∧ escapedText "a" "(" = "\\a:\\(" ∧
      Sentence.parse "\\a:\\(" none = .ok ⟨"\\a:\\(", [.word "a" ⟨some [], []⟩ none]⟩ :=
  ⟨by decide, by decide, by cbv⟩

end Sentence

end Utterance
