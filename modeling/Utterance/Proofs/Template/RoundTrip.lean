import Utterance.Proofs.Template.Parts

/-!
# Templates are read back

A template that was written down is read as the trees it was written from
(`Sentence.parse_writeItems`).  Literal characters wait while a template is read, so
the state in which an expression has been read is known only up to the
characters still waiting: `Takes` compares the levels that come out when those
are made into words and slots.  It is carried through a text piece by piece, by
spaces, bars, brackets, suffixes and tags, and an expression is one more item of
the level (`Expr.Writable.takes`).
-/

namespace Utterance.Template

open Text (isBlank)

variable {grammar : Option String} {pos : Nat} {rest : List Char} {frames : List Frame}
  {level base : Level} {pending : List Glyph}

/-! ## Waiting characters -/

/-- Words and slots do not go on with what comes next: nothing waits, or the last that waits is a gap. -/
def Settled (pending : List Glyph) : Prop := ∀ g ∈ pending.head?, g.isGap = true

namespace Level

theorem flush_nil (level : Level) : level.flush [] = .ok level := rfl

/-- A gap at the end adds nothing. -/
theorem flush_gap {g : Glyph} (hg : g.isGap = true) (pending : List Glyph) (level : Level) :
    level.flush (g :: pending) = level.flush pending := by
  rw [flush, flush, literalExprs, literalExprs, List.reverse_cons, Text.splitRuns_snoc hg]

/-- The run of glyphs behind a gap is one more item. -/
theorem flush_token {l : List Glyph} {e : Expr} (hne : l ≠ []) (hgaps : ∀ g ∈ l, g.isGap = false)
    (htoken : tokenExpr l = .ok e) (hsettled : Settled pending)
    (hbase : level.flush pending = .ok base) :
    level.flush (l.reverse ++ pending) = .ok (base.push e) := by
  have hone : Text.splitRuns Glyph.isGap [] l = [l] := Text.splitRuns_of_no_sep hgaps (by simpa)
  have hlast : [l].mapM tokenExpr = .ok [e] := by
    rw [List.mapM_cons, htoken]
    rfl
  have hitems : literalExprs (l.reverse ++ pending).reverse =
      (literalExprs pending.reverse).map (· ++ [e]) := by
    rw [List.reverse_append, List.reverse_reverse]
    cases pending with
    | nil =>
        rw [List.reverse_nil, List.nil_append, literalExprs, hone, hlast]
        rfl
    | cons g pending =>
        rw [List.reverse_cons, List.append_assoc, List.singleton_append, literalExprs,
          Text.splitRuns_append (hsettled g rfl), hone, List.mapM_append, hlast, literalExprs,
          Text.splitRuns_snoc (hsettled g rfl)]
        rfl
  rw [flush, hitems]
  rw [flush] at hbase
  cases hes : literalExprs pending.reverse with
  | error fault => simp [hes] at hbase
  | ok es =>
      rw [hes] at hbase
      cases hbase
      change Except.ok (Level.mk level.finished ((es ++ [e]).reverse ++ level.current)) = _
      rw [List.reverse_append]
      rfl

end Level

/-! ## One step of the reader -/

theorem readBranches_literal {c : Char} (hc : Mark.ofChar c = .literal) :
    readBranches grammar pos (c :: rest) frames level pending =
      readBranches grammar (pos + 1) rest frames level (⟨c, false, pos⟩ :: pending) := by
  rw [readBranches.eq_def]
  simp only [hc]

/-- A colon waits like a literal where no parenthesis follows. -/
theorem readBranches_colon (hrest : rest.head? ≠ some '(') :
    readBranches grammar pos (':' :: rest) frames level pending =
      readBranches grammar (pos + 1) rest frames level (⟨':', false, pos⟩ :: pending) := by
  have hopens : opensSubstitution pending rest = false := by simp [opensSubstitution, hrest]
  rw [readBranches.eq_def]
  simp only [show Mark.ofChar ':' = .colon from rfl, hopens]
  rfl

theorem readBranches_escape (c : Char) :
    readBranches grammar pos ('\\' :: c :: rest) frames level pending =
      readBranches grammar (pos + 2) rest frames level (⟨c, true, pos + 1⟩ :: pending) := by
  rw [readBranches.eq_def]
  simp only [show Mark.ofChar '\\' = .escape from rfl]

theorem readBranches_opening (b : Bracket) (hflush : level.flush pending = .ok base) :
    readBranches grammar pos (b.opener :: rest) frames level pending =
      readBranches grammar (pos + 1) rest (⟨b, pos, rest, base⟩ :: frames) {} [] := by
  have hmark : Mark.ofChar b.opener = .opening b := by cases b <;> rfl
  rw [readBranches.eq_def]
  simp only [hmark, hflush]
  rfl

/-- A closing bracket makes the branches of its level into a sequence, with the suffix that follows. -/
theorem readBranches_closer {f : Frame} (hflush : level.flush pending = .ok base)
    {kind : SequenceKind} {items : List Expr}
    (hitems : f.bracket.sequence f.pos base.branches = .ok (kind, items)) :
    readBranches grammar pos (f.bracket.closer :: rest) (f :: frames) level pending = (do
      let (s, n) ← readSuffix (pos + 1) rest {}
      readBranches grammar (pos + 1 + n) (rest.drop n) frames
        (f.outer.push (.seq kind (sourceText (f.inner.take (f.inner.length - (rest.length + 1))))
          items s none)) []) := by
  have hmark : Mark.ofChar f.bracket.closer = .closing := by cases f.bracket <;> rfl
  rw [readBranches.eq_def]
  simp only [hmark, beq_self_eq_true, if_true, hflush, bind, Except.bind, hitems]

theorem readBranches_closing {f : Frame} (hflush : level.flush pending = .ok base)
    {kind : SequenceKind} {items : List Expr}
    (hitems : f.bracket.sequence f.pos base.branches = .ok (kind, items)) {s : Suffix} {n : Nat}
    (hsuffix : readSuffix (pos + 1) rest {} = .ok (s, n)) :
    readBranches grammar pos (f.bracket.closer :: rest) (f :: frames) level pending =
      readBranches grammar (pos + 1 + n) (rest.drop n) frames
        (f.outer.push (.seq kind (sourceText (f.inner.take (f.inner.length - (rest.length + 1))))
          items s none)) [] := by
  rw [readBranches_closer hflush hitems, hsuffix]
  rfl

theorem readBranches_rule (hflush : level.flush pending = .ok base) {e : Expr} {n : Nat}
    (hread : readRule grammar pos rest = .ok (e, n)) :
    readBranches grammar pos ('<' :: rest) frames level pending =
      readBranches grammar (pos + 1 + n) (rest.drop n) frames (base.push e) [] := by
  rw [readBranches.eq_def]
  simp only [show Mark.ofChar '<' = .rule from rfl, hflush, hread]
  rfl

theorem readBranches_tag {e : Expr} (hflush : level.flush pending = .ok (base.push e)) {t : Tag}
    {n : Nat} (hread : readTag pos rest = .ok (t, n)) :
    readBranches grammar pos ('\x7b' :: rest) frames level pending =
      readBranches grammar (pos + 1 + n) (rest.drop n) frames (base.push (e.withTag t)) [] := by
  rw [readBranches.eq_def]
  simp only [show Mark.ofChar '\x7b' = .tag from rfl, hflush, hread]
  rfl

theorem readBranches_bar (hflush : level.flush pending = .ok base) :
    readBranches grammar pos ('|' :: rest) frames level pending =
      readBranches grammar (pos + 1) rest frames base.nextBranch [] := by
  rw [readBranches.eq_def]
  simp only [show Mark.ofChar '|' = .bar from rfl, hflush]
  rfl

/-- A parenthesis behind a colon and a pending word is taken into the word. -/
theorem readBranches_substitution {cs : List Char} (hpending : pending.head?.any (!·.isGap) = true)
    (hcs : ∀ c ∈ '(' :: cs, c ≠ ')') :
    readBranches grammar pos (':' :: '(' :: cs ++ ')' :: rest) frames level pending =
      readBranches grammar (pos + 1 + ('(' :: cs ++ [')']).length) rest frames level
        (substitutionGlyphs pos ('(' :: cs ++ [')']) ++ pending) := by
  have hopens : opensSubstitution pending ('(' :: cs ++ ')' :: rest) = true := by
    simp [opensSubstitution, hpending]
  have hdrop : ('(' :: cs ++ ')' :: rest).drop ('(' :: cs ++ [')']).length = rest := by
    rw [show '(' :: cs ++ ')' :: rest = '(' :: cs ++ [')'] ++ rest by simp, List.drop_left]
  rw [List.cons_append, readBranches.eq_def]
  simp only [show Mark.ofChar ':' = .colon from rfl, hopens, if_true,
    throughParenthesis?_append hcs, hdrop]

/-! ## Words and slots -/

/-- Where a word waits, the text is read as glyphs with the property `P`, which go on with the word. -/
def ReadInWord (grammar : Option String) (text : List Char) (P : List Glyph → Prop) : Prop :=
  ∀ pos, ∃ pos' l, P l ∧ (∀ g ∈ l, g.isGap = false) ∧
    ∀ rest frames level pending, pending.head?.any (!·.isGap) = true →
      readBranches grammar pos (text ++ rest) frames level pending =
        readBranches grammar pos' rest frames level (l.reverse ++ pending)

theorem head?_reverse_append {l : List Glyph} (hl : ∀ g ∈ l, g.isGap = false)
    (hpending : pending.head?.any (!·.isGap) = true) :
    (l.reverse ++ pending).head?.any (!·.isGap) = true := by
  rw [List.head?_append, List.head?_reverse]
  cases hlast : l.getLast? with
  | none => rwa [Option.none_or]
  | some g =>
      rw [Option.some_or, Option.any_some, hl g (List.mem_of_getLast? hlast)]
      rfl

theorem piecewise_readInWord (grammar : Option String) : Piecewise (ReadInWord grammar) where
  nil pos := ⟨pos, [], rfl, fun _ hg => absurd hg List.not_mem_nil, fun _ _ _ _ _ => rfl⟩
  append {text more _ _} h hmore pos := by
    obtain ⟨pos', a, ha, hgaps, hread⟩ := h pos
    obtain ⟨pos'', b, hb, hgapsMore, hreadMore⟩ := hmore pos'
    refine ⟨pos'', a ++ b, ⟨a, b, ha, hb, rfl⟩, List.forall_mem_append.mpr ⟨hgaps, hgapsMore⟩, ?_⟩
    intro rest frames level pending hpending
    rw [List.append_assoc, hread _ _ _ _ hpending,
      hreadMore _ _ _ _ (head?_reverse_append hgaps hpending), List.reverse_append, List.append_assoc]
  imp h himp pos :=
    have ⟨pos', l, hl, hread⟩ := h pos
    ⟨pos', l, himp l hl, hread⟩

namespace ReadInWord

variable {cs : List Char}

theorem escape (cs : List Char) : ReadInWord grammar (escape cs) fun l =>
    charsOf l = cs ∧ ∀ g ∈ l, g.escaped = true := by
  have hR := piecewise_readInWord grammar
  induction cs with
  | nil => exact hR.imp hR.nil fun _ hl => by simp [hl, charsOf]
  | cons c cs ih =>
      have hhead : ReadInWord grammar ['\\', c] fun l =>
          ∃ g : Glyph, l = [g] ∧ g.char = c ∧ g.escaped = true := fun pos =>
        ⟨pos + 2, _, ⟨⟨c, true, pos + 1⟩, rfl, rfl, rfl⟩, by simp [Glyph.isGap],
          fun _ _ _ _ _ => readBranches_escape c⟩
      refine hR.imp (hR.append hhead ih) ?_
      rintro _ ⟨_, b, ⟨g, rfl, rfl, hg⟩, ⟨rfl, hb⟩, rfl⟩
      exact ⟨rfl, List.forall_mem_cons.mpr ⟨hg, hb⟩⟩

theorem escape_unmarked (cs : List Char) :
    ReadInWord grammar (Utterance.escape cs) (Unmarked '!' cs) :=
  (piecewise_readInWord grammar).imp (escape cs) fun _ hl =>
    ⟨hl.1, fun g hg => by simp [Glyph.marks, hl.2 g hg]⟩

theorem mark : ReadInWord grammar ['!'] fun l => ∃ g : Glyph, l = [g] ∧ g.marks '!' = true :=
  fun pos => ⟨pos + 1, _, ⟨⟨'!', false, pos⟩, rfl, rfl⟩, by simp [Glyph.isGap]; decide,
    fun _ _ _ _ _ => readBranches_literal rfl⟩

theorem substitution (h : ∀ c ∈ '(' :: cs, c ≠ ')') :
    ReadInWord grammar (':' :: '(' :: cs ++ [')']) fun l =>
      ∃ g body, g.marks ':' = true ∧ Unmarked '!' ('(' :: (cs ++ [')'])) body ∧ l = g :: body := by
  intro pos
  have hglyphs : (substitutionGlyphs pos ('(' :: cs ++ [')'])).reverse = ⟨':', false, pos⟩ ::
      (('(' :: cs ++ [')']).zipIdx (pos + 1)).map fun x => ⟨x.1, true, x.2⟩ := by
    rw [substitutionGlyphs, List.reverse_append, ← List.map_reverse, List.reverse_reverse]
    rfl
  generalize hbody : (('(' :: cs ++ [')']).zipIdx (pos + 1)).map (fun x => Glyph.mk x.1 true x.2) =
    body at hglyphs
  have hescaped : ∀ g ∈ body, g.escaped = true := by
    rw [← hbody, List.forall_mem_map]
    exact fun _ _ => rfl
  have hchars : charsOf body = '(' :: (cs ++ [')']) := by
    rw [← hbody, charsOf, List.map_map, ← List.cons_append]
    exact List.zipIdx_map_fst (pos + 1) _
  refine ⟨pos + 1 + ('(' :: cs ++ [')']).length,
    (substitutionGlyphs pos ('(' :: cs ++ [')'])).reverse, ?_, ?_, ?_⟩
  · exact ⟨⟨':', false, pos⟩, body, rfl,
      ⟨hchars, fun g hg => by simp [Glyph.marks, hescaped g hg]⟩, hglyphs⟩
  · rw [hglyphs, List.forall_mem_cons]
    exact ⟨by simp [Glyph.isGap]; decide, fun g hg => by simp [Glyph.isGap, hescaped g hg]⟩
  · intro rest frames level pending hpending
    rw [List.append_assoc, List.singleton_append, readBranches_substitution hpending h,
      List.reverse_reverse]

/-- A substitution without parentheses of its own goes up to the end of the word. -/
theorem escaped_substitution {cs : List Char} (hne : cs ≠ []) :
    ReadInWord grammar (':' :: Utterance.escape cs)
      (SuffixGlyphs ⟨some (substitutionWords cs), []⟩) := by
  intro pos
  have htext : ReadInWord grammar (Utterance.escape cs) _ := ReadInWord.escape cs
  obtain ⟨pos', body, ⟨hchars, hescaped⟩, hgaps, hread⟩ := htext (pos + 1)
  have hmark : (Glyph.mk ':' false pos).marks ':' = true := rfl
  have hbody : Unmarked '!' cs body := ⟨hchars, fun g hg => by simp [Glyph.marks, hescaped g hg]⟩
  refine ⟨pos', ⟨':', false, pos⟩ :: body, ?_, List.forall_mem_cons.mpr ⟨rfl, hgaps⟩, ?_⟩
  · simpa using SuffixGlyphs.substitution hmark hbody .nil
  · intro rest frames level pending _
    have hopens : (Utterance.escape cs ++ rest).head? ≠ some '(' := by
      cases cs with
      | nil => exact absurd rfl hne
      | cons c cs =>
          rw [escape_cons]
          exact fun h => absurd (Option.some.inj h) (by decide)
    rw [List.cons_append, readBranches_colon hopens, hread rest frames level _ rfl]
    simp

theorem suffix {s : Suffix} (h : s.Writable (· ≠ ')') fun _ => True) :
    ReadInWord grammar (s.write id Utterance.escape) fun l =>
      SuffixGlyphs s l ∧ charsOf l = s.write id id :=
  (piecewise_readInWord grammar).suffix mark
    (fun ws hws => ⟨fun w hw => (h.word ws hws w hw).1, substitution (List.forall_mem_cons.mpr
      ⟨by decide, forall_mem_joined (by decide) fun w hw => (h.word ws hws w hw).2⟩)⟩)
    (fun n hn => ⟨(h.name n hn).1, escape_unmarked n.toList⟩)

end ReadInWord

/-! ## What a text does to a level -/

/-- What the reader does with `text`: a level whose waiting characters come to `base` becomes one whose
waiting characters come to `change base`, and what follows is left over. -/
def Takes (grammar : Option String) (text : List Char) (change : Level → Level) : Prop :=
  ∀ pos rest frames level pending base, level.flush pending = .ok base → Settled pending →
    Stops rest → ∃ pos' level' pending',
      readBranches grammar pos (text ++ rest) frames level pending =
        readBranches grammar pos' rest frames level' pending' ∧
      level'.flush pending' = .ok (change base)

namespace Takes

variable {text more : List Char} {change change' : Level → Level}

theorem nil : Takes grammar [] id := fun pos _ _ level pending _ hbase _ _ =>
  ⟨pos, level, pending, rfl, hbase⟩

theorem space (h : Takes grammar text change) (hmore : Takes grammar more change') :
    Takes grammar (text ++ ' ' :: more) (change' ∘ change) := by
  intro pos rest frames level pending base hbase hsettled hrest
  obtain ⟨pos', level', pending', hread, hlevel⟩ :=
    h pos (' ' :: (more ++ rest)) frames level pending base hbase hsettled (by rintro _ ⟨⟩; rfl)
  have hgap : (Glyph.mk ' ' false pos').isGap = true := rfl
  obtain ⟨pos'', level'', pending'', hreadMore, hlevelMore⟩ :=
    hmore (pos' + 1) rest frames level' (⟨' ', false, pos'⟩ :: pending') (change base)
      ((Level.flush_gap hgap _ _).trans hlevel) (by rintro _ ⟨⟩; exact hgap) hrest
  refine ⟨pos'', level'', pending'', ?_, hlevelMore⟩
  rw [List.append_assoc, List.cons_append, hread, readBranches_literal rfl, hreadMore]

theorem bar : Takes grammar ['|'] Level.nextBranch := by
  intro pos rest frames level pending base hbase _ _
  exact ⟨pos + 1, base.nextBranch, [], readBranches_bar hbase, Level.flush_nil _⟩

/-- A word with a backslash before every character is one more item, with the suffix that is read
behind it. -/
theorem escaped {t : String} {s : Suffix} (ht : t ≠ "")
    (hmore : ReadInWord grammar more (SuffixGlyphs s)) :
    Takes grammar (escape t.toList ++ more) (Level.push (.word t s none)) := by
  intro pos rest frames level pending base hbase hsettled _
  cases hchars : t.toList with
  | nil => exact absurd (String.toList_eq_nil_iff.mp hchars) ht
  | cons c cs =>
  obtain ⟨pos', _, ⟨host, l, ⟨hhost, hescaped⟩, hl, rfl⟩, hgaps, hread⟩ :=
    (piecewise_readInWord grammar).append (ReadInWord.escape cs) hmore (pos + 2)
  let first : Glyph := ⟨c, true, pos + 1⟩
  have hfirst : ∀ g ∈ first :: host, g.escaped = true := List.forall_mem_cons.mpr ⟨rfl, hescaped⟩
  have htoken := tokenExpr_word (List.cons_ne_nil first host) hfirst hl
  have hword : String.ofList (charsOf (first :: host)) = t := by
    rw [charsOf_cons, hhost, ← hchars, String.ofList_toList]
  rw [hword] at htoken
  refine ⟨pos', level, (first :: (host ++ l)).reverse ++ pending, ?_, ?_⟩
  · rw [escape_cons, List.cons_append, List.cons_append, List.cons_append, List.cons_append,
      readBranches_escape, hread _ _ _ _ rfl]
    simp [first]
  · exact Level.flush_token (List.cons_ne_nil _ _)
      (List.forall_mem_cons.mpr ⟨rfl, hgaps⟩) htoken hsettled hbase

/-- A word is one more item. -/
theorem word {t : String} {s : Suffix} (ht : t ≠ "") (hs : s.Writable (· ≠ ')') fun _ => True) :
    Takes grammar (escape t.toList ++ s.write id escape) (Level.push (.word t s none)) :=
  escaped ht ((piecewise_readInWord grammar).imp (ReadInWord.suffix hs) fun _ hl => hl.1)

/-- A slot is one more item, with the text that it was written as but for the backslashes. -/
theorem slot {n : String} {s : Suffix} (hn : n ≠ "") (hs : s.Writable (· ≠ ')') fun _ => True) :
    Takes grammar ('$' :: escape n.toList ++ s.write id escape)
      (Level.push (.slot (String.ofList ('$' :: n.toList ++ s.write id id)) n s none)) := by
  intro pos rest frames level pending base hbase hsettled _
  obtain ⟨pos', _, ⟨host, l, ⟨hhost, hescaped⟩, ⟨hl, hsuffix⟩, rfl⟩, hgaps, hread⟩ :=
    (piecewise_readInWord grammar).append (ReadInWord.escape n.toList) (ReadInWord.suffix hs) (pos + 1)
  let first : Glyph := ⟨'$', false, pos⟩
  have hne : host ≠ [] := by
    rintro rfl
    exact hn (String.toList_eq_nil_iff.mp hhost.symm)
  have hfirst : first.marks '$' = true := rfl
  have htoken := tokenExpr_slot hfirst hne hescaped hl
  rw [charsOf_append, charsOf_cons, hhost, hsuffix, String.ofList_toList] at htoken
  refine ⟨pos', level, (first :: (host ++ l)).reverse ++ pending, ?_, ?_⟩
  · rw [List.cons_append, List.cons_append, readBranches_literal rfl, hread _ _ _ _ rfl]
    simp [first]
  · exact Level.flush_token (List.cons_ne_nil _ _)
      (List.forall_mem_cons.mpr ⟨rfl, hgaps⟩) htoken hsettled hbase

/-- A rule reference is one more item. -/
theorem rule {r : RuleRef} (hr : r.Writable) : Takes grammar r.write
    (Level.push (.rule ⟨String.ofList r.write, r.name, r.grammar.or grammar⟩ none)) := by
  intro pos rest frames level pending base hbase _ hrest
  have hread := readRule_fullName hr grammar pos hrest.startsSuffix
  refine ⟨pos + 1 + (r.fullName.toList.length + 1), _, [], ?_, Level.flush_nil _⟩
  rw [RuleRef.write, List.cons_append, List.append_assoc, List.singleton_append,
    readBranches_rule hbase hread, drop_closed, ← RuleRef.write]

/-- A tag goes to the item before it. -/
theorem tagged {shielded : Char → Bool} {e : Expr} (h : Takes grammar text (Level.push e)) {t : Tag}
    (ht : t.Writable shielded) :
    Takes grammar (text ++ t.write shielded) (Level.push (e.withTag t)) := by
  intro pos rest frames level pending base hbase hsettled hrest
  obtain ⟨pos', level', pending', hread, hlevel⟩ :=
    h pos (t.write shielded ++ rest) frames level pending base hbase hsettled (by rintro _ ⟨⟩; rfl)
  have htag := readTag_body ht pos' hrest.startsSuffix
  refine ⟨pos' + 1 + ((t.body shielded).length + 1), _, [], ?_, Level.flush_nil _⟩
  rw [List.append_assoc, hread, Tag.write, List.cons_append, List.append_assoc,
    List.singleton_append, readBranches_tag hlevel htag, drop_closed]

/-- The tag that an expression may have goes to it. -/
theorem tagText {shielded : Char → Bool} {e : Expr} (h : Takes grammar text (Level.push e))
    {g : Option Tag} (hg : ∀ t ∈ g, t.Writable shielded) :
    Takes grammar (text ++ tagText shielded g) (Level.push (g.elim e e.withTag)) := by
  cases g with
  | none => simpa [Utterance.tagText] using h
  | some t => exact h.tagged (hg t rfl)

/-- A sequence is one more item, made from the branches between its brackets. -/
theorem sequence {b : Bracket} {kind : SequenceKind} {items : List Expr} {s : Suffix}
    (h : Takes grammar text change)
    (hitems : ∀ pos, b.sequence pos (change {}).branches = .ok (kind, items))
    (hs : s.Writable (· ≠ ')') (endsSuffix · = false)) :
    Takes grammar (b.opener :: text ++ b.closer :: s.write id id)
      (Level.push (.seq kind (sourceText text) items s none)) := by
  intro pos rest frames level pending base hbase _ hrest
  let frame : Frame := ⟨b, pos, text ++ b.closer :: (s.write id id ++ rest), base⟩
  obtain ⟨pos', level', pending', hread, hlevel⟩ :=
    h (pos + 1) (b.closer :: (s.write id id ++ rest)) (frame :: frames) {} [] {} rfl
      (by rintro _ ⟨⟩) (by cases b <;> rintro _ ⟨⟩ <;> rfl)
  have hsuffix := readSuffix_write hs hrest (pos' + 1)
  have hinner : frame.inner.take (frame.inner.length - ((s.write id id ++ rest).length + 1)) = text := by
    simp [frame]
  refine ⟨pos' + 1 + (s.write id id).length, _, [], ?_, Level.flush_nil _⟩
  rw [List.cons_append, List.cons_append, List.append_assoc, List.cons_append,
    readBranches_opening b hbase, hread]
  refine (readBranches_closing (f := frame) hlevel (hitems pos) hsuffix).trans ?_
  rw [hinner, List.drop_left]

end Takes

/-! ## Branches -/

namespace Level

/-- The level with `es` behind the items of its branch. -/
def pushAll (es : List Expr) (l : Level) : Level := es.foldl (fun l e => l.push e) l

/-- The level with each of `es` in a branch of its own, the first in the branch that is being read. -/
def branchAll : List Expr → Level → Level
  | [], l => l
  | [e], l => l.push e
  | e :: e' :: es, l => branchAll (e' :: es) (l.push e).nextBranch

theorem pushAll_eq (es : List Expr) (l : Level) :
    pushAll es l = ⟨l.finished, es.reverse ++ l.current⟩ := by
  induction es generalizing l with
  | nil => rfl
  | cons e es ih =>
      rw [pushAll, List.foldl_cons]
      refine (ih (l.push e)).trans ?_
      simp [push]

theorem branches_pushAll (es : List Expr) : (pushAll es {}).branches = [es] := by
  simp [pushAll_eq, branches, nextBranch]

theorem branches_branchAll (e : Expr) (es : List Expr) (finished : List (List Expr)) :
    (branchAll (e :: es) ⟨finished, []⟩).branches = finished.reverse ++ (e :: es).map ([·]) := by
  induction es generalizing e finished with
  | nil => simp [branchAll, branches, nextBranch, push]
  | cons e' es ih =>
      rw [branchAll]
      refine (ih e' ([e] :: finished)).trans ?_
      simp

end Level

/-- A branch of one item is that item. -/
theorem mapM_branchExpr (pos : Nat) (es : List Expr) :
    (es.map ([·])).mapM (branchExpr pos) = .ok es := by
  induction es with
  | nil => rfl
  | cons e es ih =>
      rw [List.map_cons, List.mapM_cons, ih]
      rfl

section

variable {write : Expr → List Char} {read : Expr → Expr} {items : List Expr}

/-- Items with spaces between them go to one branch. -/
theorem Takes.spaced (h : ∀ e ∈ items, Takes grammar (write e) (Level.push (read e))) :
    Takes grammar ([' '].intercalate (items.map write)) (Level.pushAll (items.map read)) := by
  induction items with
  | nil => exact Takes.nil
  | cons e es ih =>
      rw [List.forall_mem_cons] at h
      cases es with
      | nil =>
          rw [List.map_singleton, List.map_singleton, List.intercalate_singleton]
          exact h.1
      | cons e' es =>
          have hrest := ih h.2
          rw [List.map_cons, List.map_cons] at hrest ⊢
          rw [List.map_cons, List.intercalate_cons_cons, List.append_assoc, List.singleton_append]
          exact h.1.space hrest

/-- Items with bars between them go to branches of their own. -/
theorem Takes.barred (h : ∀ e ∈ items, Takes grammar (write e) (Level.push (read e))) :
    Takes grammar ([' ', '|', ' '].intercalate (items.map write))
      (Level.branchAll (items.map read)) := by
  induction items with
  | nil => exact Takes.nil
  | cons e es ih =>
      rw [List.forall_mem_cons] at h
      cases es with
      | nil =>
          rw [List.map_singleton, List.map_singleton, List.intercalate_singleton]
          exact h.1
      | cons e' es =>
          have hrest := (h.1.space Takes.bar).space (ih h.2)
          have htext (more : List Char) :
              write e ++ ' ' :: ['|'] ++ ' ' :: more = write e ++ [' ', '|', ' '] ++ more := by simp
          rw [List.map_cons, List.map_cons, List.intercalate_cons_cons]
          rw [htext] at hrest
          exact hrest

end

/-! ## Expressions -/

/-- Round brackets group a single branch. -/
theorem sequence_group (pos : Nat) (es : List Expr) :
    Bracket.round.sequence pos (Level.pushAll es {}).branches = .ok (.group, es) := by
  rw [Level.branches_pushAll]
  rfl

theorem sequence_alternative (pos : Nat) {es : List Expr} (h : 2 ≤ es.length) :
    Bracket.round.sequence pos (Level.branchAll es {}).branches = .ok (.alternative, es) := by
  match es, h with
  | e :: e' :: es, _ =>
      have hmap := mapM_branchExpr pos (e :: e' :: es)
      rw [show ({} : Level) = ⟨[], []⟩ from rfl, Level.branches_branchAll]
      simp only [List.reverse_nil, List.nil_append, List.map_cons] at hmap ⊢
      rw [Bracket.sequence, hmap]
      · rfl
      · simp

theorem sequence_optional (pos : Nat) (es : List Expr) :
    Bracket.square.sequence pos (Level.branchAll es {}).branches =
      .ok (.alternative, es ++ [Expr.emptyWord]) := by
  cases es with
  | nil => rfl
  | cons e es =>
      have hmap := mapM_branchExpr pos (e :: es)
      rw [show ({} : Level) = ⟨[], []⟩ from rfl, Level.branches_branchAll]
      simp only [List.reverse_nil, List.nil_append, List.map_cons] at hmap ⊢
      rw [Bracket.sequence, hmap]
      · rfl
      · simp

end Template

open Template

namespace Expr

variable {shielded : Char → Bool} {grammar : Option String}

/-- An expression that was written down is read as one more item. -/
theorem Writable.takes {e : Expr} (h : e.Writable shielded) :
    Takes grammar (e.write shielded) (Level.push (e.asRead shielded grammar)) := by
  induction h with
  | @word t s g ht hs hg =>
      have hread : Takes grammar _ _ := (Takes.word ht hs).tagText hg
      cases g <;> exact hread
  | @slot x n s g hn hs hg =>
      have hread : Takes grammar _ _ := (Takes.slot hn hs).tagText hg
      cases g <;> exact hread
  | @rule r g hr hg =>
      have hread : Takes grammar _ _ := (Takes.rule hr).tagText hg
      cases g <;> exact hread
  | @group x items s g hitems hs hg ih =>
      have hread := ((Takes.spaced ih).sequence (fun pos => sequence_group pos _) hs).tagText hg
      rw [write, asRead, writeEach_eq_map, asReadEach_eq_map, bracket, inSquares_of_writable hitems]
      cases g <;> exact hread
  | @alternative x items s g htwo hitems hs hg ih =>
      have htwo : 2 ≤ (items.map (asRead shielded grammar)).length := by rwa [List.length_map]
      have hread :=
        ((Takes.barred ih).sequence (fun pos => sequence_alternative pos htwo) hs).tagText hg
      rw [write, asRead, writeEach_eq_map, asReadEach_eq_map, bracket, between,
        inSquares_of_writable hitems]
      cases g <;> exact hread
  | @optional x items s g hitems hs hg ih =>
      have hread := ((Takes.barred ih).sequence (fun pos => sequence_optional pos _) hs).tagText hg
      rw [write, asRead, writeEach_eq_map, asReadEach_eq_map, bracket, between, inSquares_optional,
        List.map_append, List.map_append, List.map_singleton, List.map_singleton,
        if_pos rfl, if_pos rfl, List.dropLast_concat]
      cases g <;> exact hread

end Expr

/-- The text of a template. -/
def writeItems (shielded : Char → Bool) (items : List Expr) : String :=
  String.ofList ([' '].intercalate (items.map (Expr.write shielded)))

/-- A template that was written down is read as the trees it was written from. -/
theorem Sentence.parse_writeItems {shielded : Char → Bool} {items : List Expr}
    (h : ∀ e ∈ items, e.Writable shielded) (origin : Option Origin) :
    Sentence.parse (writeItems shielded items) origin =
      .ok ⟨writeItems shielded items,
        items.map (Expr.asRead shielded (origin.bind Origin.intent))⟩ := by
  have htakes : Takes (origin.bind Origin.intent) _ _ := Takes.spaced fun e he => (h e he).takes
  obtain ⟨pos, level, pending, hread, hlevel⟩ :=
    htakes 0 [] [] {} [] {} rfl (by rintro _ ⟨⟩) (by rintro _ ⟨⟩)
  rw [List.append_nil] at hread
  have hitems : readItems (origin.bind Origin.intent) (writeItems shielded items).toList =
      .ok (items.map (Expr.asRead shielded (origin.bind Origin.intent))) := by
    rw [writeItems, String.toList_ofList, readItems, hread, readBranches.eq_def]
    simp only [hlevel, bind, Except.bind, pure, Except.pure, Level.branches_pushAll]
  rw [Sentence.parse, hitems]

/-- The items of `dim!upper (red | $h){hue:(x)} [<Home.lamp>]:(it)!lower`. -/
def dimItems : List Expr :=
  [.word "dim" ⟨none, ["upper"]⟩ none,
    .seq .alternative "" [.word "red" {} none, .slot "" "h" {} none] {}
      (some ⟨"hue", ⟨some ["x"], []⟩⟩),
    .seq .alternative "" [.rule ⟨"", "lamp", some "Home"⟩ none, Expr.emptyWord]
      ⟨some ["it"], ["lower"]⟩ none]

theorem Expr.writable_dimItems : ∀ e ∈ dimItems, e.Writable fun _ => true := by
  have hplain (inWord inName : Char → Prop) : ({} : Suffix).Writable inWord inName :=
    ⟨by rintro _ ⟨⟩, by rintro _ ⟨⟩⟩
  have hdim : (Expr.word "dim" ⟨none, ["upper"]⟩ none).Writable fun _ => true :=
    .word (by decide) ⟨by rintro _ ⟨⟩, by simp⟩ (by rintro _ ⟨⟩)
  have hhue : Tag.Writable (fun _ => true) ⟨"hue", ⟨some ["x"], []⟩⟩ :=
    ⟨by decide, by decide, by simp [Inert], by simp [Text.IsWord, Inert]; decide, by simp⟩
  have hlamp : RuleRef.Writable ⟨"", "lamp", some "Home"⟩ :=
    ⟨⟨by decide, by decide, by decide, by decide⟩, by decide, by
      rintro _ ⟨⟩
      exact ⟨by decide, by decide, by decide, by decide⟩⟩
  have hit : Suffix.Writable (· ≠ ')') (endsSuffix · = false) ⟨some ["it"], ["lower"]⟩ :=
    ⟨by simp [Text.IsWord]; decide, by simp; decide⟩
  refine List.forall_mem_cons.mpr ⟨hdim, List.forall_mem_cons.mpr ⟨?_, List.forall_mem_singleton.mpr ?_⟩⟩
  · refine .alternative (by decide) (List.forall_mem_cons.mpr ⟨?_, List.forall_mem_singleton.mpr ?_⟩)
      (hplain _ _) (by rintro _ ⟨⟩; exact hhue)
    · exact .word (by decide) (hplain _ _) (by rintro _ ⟨⟩)
    · exact .slot (by decide) (hplain _ _) (by rintro _ ⟨⟩)
  · exact .optional (List.forall_mem_singleton.mpr (.rule hlamp (by rintro _ ⟨⟩))) hit
      (by rintro _ ⟨⟩)

theorem Sentence.parse_dimItems :
    (∀ e ∈ dimItems, e.Writable fun _ => true) ∧
      Sentence.parse ("\\d\\i\\m!\\u\\p\\p\\e\\r (\\r\\e\\d | $\\h)\x7b\\h\\u\\e:(\\x)\x7d " ++
          "[<Home.lamp>]:(it)!lower") none =
        .ok ⟨writeItems (fun _ => true) dimItems, dimItems.map (Expr.asRead (fun _ => true) none)⟩ := by
  have htext : "\\d\\i\\m!\\u\\p\\p\\e\\r (\\r\\e\\d | $\\h)\x7b\\h\\u\\e:(\\x)\x7d " ++
      "[<Home.lamp>]:(it)!lower" = writeItems (fun _ => true) dimItems := by decide +kernel
  rw [htext]
  exact ⟨Expr.writable_dimItems, Sentence.parse_writeItems Expr.writable_dimItems none⟩

end Utterance
