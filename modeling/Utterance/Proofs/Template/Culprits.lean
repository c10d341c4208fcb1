import Mathlib
import Utterance.Proofs.Template.Readings

/-!
# Where the errors point

A reading knows where in the text it is: what is left is what stands there, and brackets and
waiting characters are remembered with their own places (`Reading.Inside`).  Every round keeps
this, so nothing is ever taken from outside the text.

A fault is found at a character that is to blame for it (`Reason.Blames`): an open bracket, a
mark without its word, a slot without a name.  The readers of suffixes, rules, tags and tokens
each point into what they were given, and the place of a reading in the text makes it a place
in the text (`Sentence.parse_error_points`).
-/

namespace Utterance

namespace Template

/-! ## Places -/

/-- What is left of `text` at `pos` is `cs`. -/
structure Stands (text : List Char) (pos : Nat) (cs : List Char) : Prop where
  pos_le : pos ≤ text.length
  drop_eq : text.drop pos = cs

namespace Stands

variable {text taken more : List Char} {pos : Nat}

theorem append (h : Stands text pos (taken ++ more)) : Stands text (pos + taken.length) more := by
  have hlength := congrArg List.length h.drop_eq
  rw [List.length_drop, List.length_append] at hlength
  refine ⟨by have := h.pos_le; omega, ?_⟩
  rw [← List.drop_drop, h.drop_eq, List.drop_left]

theorem getElem? {i : Nat} {c : Char} {cs : List Char} (h : Stands text pos cs)
    (hc : cs[i]? = some c) : text[pos + i]? = some c := by
  rw [← List.getElem?_drop, h.drop_eq, hc]

theorem head {c : Char} {cs : List Char} (h : Stands text pos (c :: cs)) :
    text[pos]? = some c := by
  simpa using h.getElem? (List.getElem?_cons_zero (a := c) (l := cs))

/-- One character and `n` more are taken. -/
theorem drop {c : Char} {cs : List Char} {n : Nat} (h : Stands text pos (c :: cs))
    (hn : n ≤ cs.length) : Stands text (pos + 1 + n) (cs.drop n) := by
  have htaken : c :: cs = (c :: cs.take n) ++ cs.drop n := by simp
  have hrest := Stands.append (htaken ▸ h)
  rwa [List.length_cons, List.length_take_of_le hn, Nat.add_comm n 1, ← Nat.add_assoc] at hrest

theorem standIn {l : List Glyph} {cs : List Char} (h : Stands text pos (cs ++ more))
    (hl : StandIn pos cs l) : StandIn 0 text l := by
  intro g hg
  obtain ⟨hle, hchar⟩ := hl g hg
  have hlt := (List.getElem?_eq_some_iff.mp hchar).1
  have hmore : (cs ++ more)[g.pos - pos]? = some g.char := by
    rw [List.getElem?_append_left hlt, hchar]
  have htext := h.getElem? hmore
  rw [Nat.add_sub_cancel' hle] at htext
  exact ⟨Nat.zero_le _, htext⟩

end Stands

/-! ## Faults and their characters -/

/-- The bracket that `close` closes. -/
def opener? (close : Char) : Option Char :=
  match close with
  | ')' => some '('
  | ']' => some '['
  | '>' => some '<'
  | '\x7d' => some '\x7b'
  | _ => none

/-- The characters that a fault may be blamed on.  An empty alternative has no character of its
own, and what is no rule or stands outside all sections is not found by reading a template. -/
def Reason.Blames : Reason → Char → Prop
  | .unclosed close, c => opener? close = some c
  | .unexpected x, c => c = x
  | .emptyAlternative, _ => True
  | .missingParenthesis, c | .emptyConverter, c | .ruleSuffix, c | .tagSuffix, c => c = ':' ∨ c = '!'
  | .emptyTag, c | .tagAlone, c => c = '\x7b'
  | .emptyRule, c => c = '<'
  | .emptySlot, _ | .suffixAlone, _ | .notARule, _ | .outsideSection, _ => False

/-- The characters that a fault may be blamed on if a token starts with them. -/
def Reason.BlamesStart : Reason → Char → Prop
  | .emptySlot, c => c = '$'
  | .suffixAlone, c => c = ':' ∨ c = '!'
  | _, _ => False

/-- The fault is found at a character of `cs`, which starts at `pos`, that is to blame for it. -/
def Fault.PointsIn (pos : Nat) (cs : List Char) (f : Fault) : Prop :=
  pos ≤ f.pos ∧ ∃ c, cs[f.pos - pos]? = some c ∧ f.reason.Blames c

theorem Fault.pointsIn_head {pos : Nat} {c : Char} {cs : List Char} {reason : Reason}
    (h : reason.Blames c) : PointsIn pos (c :: cs) ⟨reason, pos⟩ :=
  ⟨Nat.le_refl pos, c, by simp, h⟩

/-- What is found further on in a text is found in the text. -/
theorem Fault.PointsIn.append {pos : Nat} {taken cs : List Char} {f : Fault}
    (h : f.PointsIn (pos + taken.length) cs) : f.PointsIn pos (taken ++ cs) := by
  obtain ⟨hle, c, hc, hblames⟩ := h
  refine ⟨by omega, c, ?_, hblames⟩
  rw [List.getElem?_append_right (by omega), Nat.sub_sub, Nat.add_comm, Nat.add_comm, hc]

theorem Fault.PointsIn.cons {pos : Nat} {cs : List Char} {f : Fault} (h : f.PointsIn (pos + 1) cs)
    (c : Char) : f.PointsIn pos (c :: cs) := by
  have h : f.PointsIn (pos + [c].length) cs := h
  exact h.append

theorem startsSuffix_iff {cs : List Char} :
    startsSuffix cs = true ↔ ∃ c, cs.head? = some c ∧ (c = ':' ∨ c = '!') := by
  cases cs <;> simp [startsSuffix]

/-! ## The parts of a template -/

theorem suffixText?_prefix {cs text : List Char} (h : suffixText? cs = some text) :
    text <+: cs := by
  rw [suffixText?.eq_def] at h
  split at h
  · exact throughParenthesis?_prefix h
  · obtain rfl := Option.some.inj h
    exact List.takeWhile_prefix _

/-- A part that is read before `rest` takes no more than that, and a fault is found in `cs`. -/
structure ReadsWithin {α : Type} (pos : Nat) (cs rest : List Char) (x : Except Fault (α × Nat)) :
    Prop where
  taken : ∀ a n, x = .ok (a, n) → n ≤ rest.length
  points : ∀ fault, x = .error fault → fault.PointsIn pos cs

namespace ReadsWithin

variable {α : Type} {pos : Nat} {cs rest : List Char}

theorem ok {a : α} {n : Nat} (h : n ≤ rest.length) :
    ReadsWithin pos cs rest (.ok (a, n)) where
  taken _ _ heq := by
    cases heq
    exact h
  points _ heq := by cases heq

theorem error {fault : Fault} (h : fault.PointsIn pos cs) :
    ReadsWithin pos cs rest (.error fault : Except Fault (α × Nat)) where
  taken _ _ heq := by cases heq
  points _ heq := by
    cases heq
    exact h

/-- What is read behind the first `k` characters is read within all of them. -/
theorem after {text : List Char} {k : Nat} {x : Except Fault (α × Nat)} (hk : k = text.length)
    (h : ReadsWithin (pos + k) rest rest x) :
    ReadsWithin pos (text ++ rest) (text ++ rest) (do let (a, n) ← x; pure (a, k + n)) := by
  cases x with
  | error fault => exact .error ((hk ▸ h.points fault rfl).append)
  | ok r =>
      have hle := h.taken r.1 r.2 rfl
      exact .ok (by rw [List.length_append]; omega)

/-- What is read behind a mark and the text that belongs to it is read within all of them. -/
theorem behind {c : Char} {text : List Char} {x : Except Fault (α × Nat)}
    (htext : suffixText? rest = some text)
    (h : ReadsWithin (pos + 1 + text.length) (rest.drop text.length) (rest.drop text.length) x) :
    ReadsWithin pos (c :: rest) (c :: rest) (do
      let (a, n) ← x
      pure (a, 1 + text.length + n)) := by
  obtain ⟨more, rfl⟩ := suffixText?_prefix htext
  have hk : 1 + text.length = (c :: text).length := by rw [List.length_cons, Nat.add_comm]
  rw [List.drop_left, Nat.add_assoc] at h
  exact h.after hk

end ReadsWithin

/-- What is wrong with a suffix is found at its mark. -/
theorem readSuffix_within (pos : Nat) (cs : List Char) (s : Suffix) :
    ReadsWithin pos cs cs (readSuffix pos cs s) := by
  induction pos, cs, s using readSuffix.induct with
  | case1 pos s =>
      rw [readSuffix]
      exact .ok (Nat.le_refl 0)
  | case2 pos s c rest hmark hnone =>
      rw [readSuffix, if_pos hmark, hnone]
      exact .error (Fault.pointsIn_head (by simpa [Reason.Blames] using hmark))
  | case3 pos s c rest hmark text htext hcolon ih =>
      rw [readSuffix, if_pos hmark, htext]
      simp only [if_pos hcolon]
      exact ih.behind htext
  | case4 pos s c rest hmark text htext hcolon hnames =>
      rw [readSuffix, if_pos hmark, htext]
      simp only [if_neg hcolon, hnames]
      exact .error (Fault.pointsIn_head (by simpa [Reason.Blames] using hmark))
  | case5 pos s c rest hmark text htext hcolon hnames ih =>
      rw [readSuffix, if_pos hmark, htext]
      simp only [if_neg hcolon]
      exact ih.behind htext
  | case6 pos s c rest hmark =>
      rw [readSuffix, if_neg hmark]
      exact .ok (Nat.zero_le _)

/-- What is wrong with a rule reference is found at its bracket, or at the suffix behind it. -/
theorem readRule_within (grammar : Option String) (pos : Nat) (cs : List Char) :
    ReadsWithin pos ('<' :: cs) cs (readRule grammar pos cs) := by
  rw [readRule]
  generalize (cs.takeWhile (· != '>')) = raw
  split
  next => exact .error (Fault.pointsIn_head rfl)
  next closer rest hdrop =>
    dsimp only
    split_ifs with hempty hsuffix
    · exact .error (Fault.pointsIn_head rfl)
    · obtain ⟨c, hc, hmark⟩ := startsSuffix_iff.mp hsuffix
      have hplace : cs[raw.length + 1]? = some c := by
        rw [← List.getElem?_drop, hdrop, List.getElem?_cons_succ, ← List.head?_eq_getElem?, hc]
      refine .error ⟨by dsimp only; omega, c, ?_, hmark⟩
      rw [show pos + raw.length + 2 - pos = raw.length + 1 + 1 by omega, List.getElem?_cons_succ,
        hplace]
    · refine .ok ?_
      have hlength := congrArg List.length hdrop
      rw [List.length_drop, List.length_cons] at hlength
      omega

/-- The brace that ends a tag stands in the text. -/
theorem tagGlyphs_brace {pos : Nat} {cs : List Char} {l : List Glyph} {n : Nat}
    (h : tagGlyphs pos cs = some (l, n)) :
    ∃ inside after, cs = inside ++ '\x7d' :: after ∧ n = inside.length + 1 := by
  induction pos, cs using tagGlyphs.induct generalizing l n with
  | case1 pos => cases h
  | case2 pos rest =>
      cases h
      exact ⟨[], rest, rfl, rfl⟩
  | case3 pos c rest ih =>
      rw [tagGlyphs] at h
      obtain ⟨⟨more, m⟩, hmore, heq⟩ := Option.map_eq_some_iff.mp h
      cases heq
      obtain ⟨inside, after, rfl, rfl⟩ := ih hmore
      exact ⟨'\\' :: c :: inside, after, rfl, rfl⟩
  | case4 pos => cases h
  | case5 pos c rest hbrace hescape hlast ih =>
      rw [tagGlyphs] at h
      · obtain ⟨⟨more, m⟩, hmore, heq⟩ := Option.map_eq_some_iff.mp h
        cases heq
        obtain ⟨inside, after, rfl, rfl⟩ := ih hmore
        exact ⟨c :: inside, after, rfl, rfl⟩
      · exact hbrace
      · exact hescape
      · exact hlast

theorem tagGlyphs_le {pos : Nat} {cs : List Char} {l : List Glyph} {n : Nat}
    (h : tagGlyphs pos cs = some (l, n)) : n ≤ cs.length := by
  obtain ⟨inside, after, rfl, rfl⟩ := tagGlyphs_brace h
  simp only [List.length_append, List.length_cons]
  omega

/-- What is wrong with a tag is found at its brace, or at the suffix behind it. -/
theorem readTag_within (pos : Nat) (cs : List Char) :
    ReadsWithin pos ('\x7b' :: cs) cs (readTag pos cs) := by
  rw [readTag]
  split
  next => exact .error (Fault.pointsIn_head rfl)
  next glyphs n hglyphs =>
    have hle := tagGlyphs_le hglyphs
    split_ifs with hsuffix
    · obtain ⟨c, hc, hmark⟩ := startsSuffix_iff.mp hsuffix
      rw [List.head?_drop] at hc
      refine .error ⟨by dsimp only; omega, c, ?_, hmark⟩
      rw [show pos + 1 + n - pos = n + 1 by omega, List.getElem?_cons_succ, hc]
    · dsimp only
      split_ifs
      · exact .error (Fault.pointsIn_head rfl)
      · exact .ok hle

/-! ## Tokens -/

/-- What stands before the first mark of a suffix. -/
def tokenHost (l : List Glyph) : List Glyph := l.takeWhile fun g => !(g.marks ':' || g.marks '!')

theorem cutSuffix_fst (l : List Glyph) : (cutSuffix l).1 = tokenHost l := by
  simp only [cutSuffix, List.takeWhile_takeWhile, tokenHost]
  congr 1
  funext g
  cases g.marks ':' <;> cases g.marks '!' <;> rfl

theorem tokenHost_cons_eq_nil_iff {first : Glyph} {rest : List Glyph} :
    tokenHost (first :: rest) = [] ↔ first.marks ':' = true ∨ first.marks '!' = true := by
  rw [tokenHost, List.takeWhile_cons]
  cases first.marks ':' <;> cases first.marks '!' <;> simp

theorem Glyph.marks_iff {c : Char} {g : Glyph} : g.marks c = true ↔ g.escaped = false ∧ g.char = c := by
  simp [Glyph.marks]

/-- What is wrong with a token is found at its first character, which has no backslash. -/
theorem exists_first_of_tokenExpr_eq_error {l : List Glyph} {fault : Fault}
    (h : tokenExpr l = .error fault) :
    ∃ first ∈ l.head?, first.escaped = false ∧ fault.pos = first.pos ∧
      fault.reason.BlamesStart first.char := by
  cases l with
  | nil => cases h
  | cons first rest =>
      refine ⟨first, rfl, ?_⟩
      rw [tokenExpr] at h
      dsimp only at h
      split_ifs at h with hslot hempty hsuffix
      · cases h
        obtain ⟨hescaped, hchar⟩ := Glyph.marks_iff.mp hslot
        exact ⟨hescaped, rfl, hchar⟩
      · cases h
        rw [Bool.and_eq_true, List.isEmpty_iff, cutSuffix_fst, tokenHost_cons_eq_nil_iff,
          Glyph.marks_iff, Glyph.marks_iff] at hsuffix
        obtain ⟨⟨hescaped, hchar⟩ | ⟨hescaped, hchar⟩, -⟩ := hsuffix
        · exact ⟨hescaped, rfl, .inl hchar⟩
        · exact ⟨hescaped, rfl, .inr hchar⟩

/-! ## Alternatives -/

theorem eq_of_branchExpr_eq_error {pos : Nat} {items : List Expr} {fault : Fault}
    (h : branchExpr pos items = .error fault) : fault = ⟨.emptyAlternative, pos⟩ := by
  match items, h with
  | [], h =>
      cases h
      rfl
  | [_], h | _ :: _ :: _, h => cases h

theorem eq_of_mapM_branchExpr_eq_error {pos : Nat} {branches : List (List Expr)} {fault : Fault}
    (h : branches.mapM (branchExpr pos) = .error fault) : fault = ⟨.emptyAlternative, pos⟩ := by
  obtain ⟨items, -, h⟩ := exists_mem_of_mapM_error h
  exact eq_of_branchExpr_eq_error h

theorem Bracket.eq_of_sequence_eq_error {b : Bracket} {pos : Nat} {branches : List (List Expr)}
    {fault : Fault} (h : b.sequence pos branches = .error fault) :
    fault = ⟨.emptyAlternative, pos⟩ := by
  rw [Bracket.sequence.eq_def] at h
  cases b
  all_goals
    dsimp only at h
    split at h
    · cases h
    · obtain h | ⟨_, -, h⟩ := Except.bind_eq_error.mp h
      · exact eq_of_mapM_branchExpr_eq_error h
      · cases h

/-! ## Readings in their text -/

/-- The reader is where it takes itself to be in `text`, and remembers what stands there. -/
structure Reading.Inside (text : List Char) (r : Reading) : Prop where
  stands : Stands text r.pos r.rest
  frames : ∀ f ∈ r.frames, f.pos < r.pos ∧ text[f.pos]? = some f.bracket.opener ∧
    Stands text (f.pos + 1) f.inner
  pending : StandIn 0 text r.pending

variable {text : List Char} {grammar : Option String} {r r' : Reading} {fault : Fault}

namespace Reading

theorem inside_start (text : List Char) : (start text).Inside text where
  stands := ⟨Nat.zero_le _, rfl⟩
  frames _ hf := absurd hf List.not_mem_nil
  pending _ hg := absurd hg List.not_mem_nil

/-- The reader goes on behind a character and `n` more, and no bracket is opened. -/
theorem Inside.advance {pos n : Nat} {c : Char} {rest : List Char} {frames frames' : List Frame}
    {level level' : Level} {pending : List Glyph}
    (h : Inside text ⟨pos, c :: rest, frames, level, pending⟩) (hn : n ≤ rest.length)
    (hframes : frames' ⊆ frames) : Inside text ⟨pos + 1 + n, rest.drop n, frames', level', []⟩ where
  stands := h.stands.drop hn
  frames f hf := by
    obtain ⟨hlt, hf⟩ := h.frames f (hframes hf)
    refine ⟨?_, hf⟩
    dsimp only at hlt ⊢
    omega
  pending _ hg := absurd hg List.not_mem_nil

theorem Inside.moves (hr : r.Inside text) (h : Moves grammar r r') : r'.Inside text := by
  cases h with
  | wait htaken hglyphs hwaits =>
      refine ⟨hr.stands.append, fun f hf => ?_, List.forall_mem_append.mpr ⟨?_, hr.pending⟩⟩
      · obtain ⟨hlt, hf⟩ := hr.frames f hf
        exact ⟨Nat.lt_add_right _ hlt, hf⟩
      · exact hr.stands.standIn hglyphs
  | @opening pos rest frames level pending base b hflush =>
      have hnext : Inside text ⟨pos + 1, rest, frames, {}, []⟩ :=
        hr.advance (Nat.zero_le _) (List.Subset.refl _)
      refine ⟨hnext.stands, List.forall_mem_cons.mpr ⟨?_, hnext.frames⟩, hnext.pending⟩
      exact ⟨Nat.lt_succ_self pos, hr.stands.head, hnext.stands⟩
  | closing hflush hitems hsuffix =>
      exact hr.advance ((readSuffix_within _ _ _).taken _ _ hsuffix) (List.subset_cons_self _ _)
  | rule hflush hread =>
      exact hr.advance ((readRule_within _ _ _).taken _ _ hread) (List.Subset.refl _)
  | tag hflush hread htag =>
      exact hr.advance ((readTag_within _ _).taken _ _ hread) (List.Subset.refl _)
  | bar hflush => exact hr.advance (Nat.zero_le _) (List.Subset.refl _)

theorem inside_of_mem_run (h : r ∈ run grammar (start text)) : r.Inside text :=
  forall_mem_run (inside_start text) (fun _ _ _ ha hmoves => ha.moves hmoves) r h

theorem mem_readTokens {l : List Glyph} (hr : r ∈ run grammar (start text)) (hl : l ∈ r.tokens) :
    l ∈ readTokens grammar text :=
  List.mem_flatMap.mpr ⟨r, hr, hl⟩

end Reading

/-- The fault is found at a character of the text that is to blame for it, or at one that
starts a token and is to blame for that. -/
def Fault.FoundIn (text : List Char) (tokens : List (List Glyph)) (f : Fault) : Prop :=
  ∃ c, text[f.pos]? = some c ∧ (f.reason.Blames c ∨
    f.reason.BlamesStart c ∧ ∃ l ∈ tokens, l.head? = some ⟨c, false, f.pos⟩)

theorem Fault.PointsIn.foundIn {text cs : List Char} {tokens : List (List Glyph)} {pos : Nat}
    {f : Fault} (h : f.PointsIn pos cs) (hcs : Stands text pos cs) : f.FoundIn text tokens := by
  obtain ⟨hle, c, hc, hblames⟩ := h
  have htext := hcs.getElem? hc
  rw [Nat.add_sub_cancel' hle] at htext
  exact ⟨c, htext, .inl hblames⟩

theorem Bracket.opener?_closer (b : Bracket) : opener? b.closer = some b.opener := by
  cases b <;> rfl

namespace Reading

theorem foundIn_of_fails (hr : r ∈ run grammar (start text)) (h : Fails grammar r fault) :
    fault.FoundIn text (readTokens grammar text) := by
  have hinside := inside_of_mem_run hr
  cases h with
  | @unclosed pos f frames =>
      obtain ⟨-, hopener, -⟩ := hinside.frames f List.mem_cons_self
      exact ⟨f.bracket.opener, hopener, .inl f.bracket.opener?_closer⟩
  | unexpected => exact ⟨_, hinside.stands.head, .inl rfl⟩
  | token hflushes hflush =>
      obtain ⟨l, hl, htoken⟩ := exists_token_of_flush_eq_error hflushes hflush
      obtain ⟨⟨c, _, p⟩, hfirst, rfl, hpos, hblames⟩ := exists_first_of_tokenExpr_eq_error htoken
      have hwaits := mem_pending_of_mem_tokens hl (List.mem_of_mem_head? hfirst)
      obtain ⟨-, hchar⟩ := hinside.pending _ hwaits
      exact ⟨c, hpos ▸ hchar, .inr ⟨hblames, l, mem_readTokens hr hl, hpos ▸ hfirst⟩⟩
  | @sequence pos c rest f frames level pending branches fault hitems =>
      obtain ⟨-, hopener, -⟩ := hinside.frames f List.mem_cons_self
      obtain rfl := Bracket.eq_of_sequence_eq_error hitems
      exact ⟨f.bracket.opener, hopener, .inl trivial⟩
  | suffix hsuffix => exact (((readSuffix_within _ _ _).points _ hsuffix).cons _).foundIn hinside.stands
  | rule hread => exact ((readRule_within _ _ _).points _ hread).foundIn hinside.stands
  | tag hread => exact ((readTag_within _ _).points _ hread).foundIn hinside.stands
  | tagAlone => exact ⟨_, hinside.stands.head, .inl rfl⟩
  | substitution => exact ⟨_, hinside.stands.head, .inl (.inl rfl)⟩

end Reading

theorem foundIn_of_readItems_eq_error {grammar : Option String} {text : List Char} {fault : Fault}
    (h : readItems grammar text = .error fault) : fault.FoundIn text (readTokens grammar text) := by
  obtain herr | ⟨branches, hread, h⟩ := Except.bind_eq_error.mp h
  · have herr : (Reading.start text).read grammar = .error fault := herr
    obtain ⟨r, hr, hfails⟩ := Reading.exists_fails_of_read_eq_error herr
    exact Reading.foundIn_of_fails hr hfails
  · split at h
    · cases h
    next hbranches =>
      obtain herr | ⟨_, -, h⟩ := Except.bind_eq_error.mp h
      · obtain rfl := eq_of_mapM_branchExpr_eq_error herr
        cases text with
        | nil =>
            rw [readBranches.eq_def] at hread
            cases hread
            exact (hbranches [] rfl).elim
        | cons c cs => exact ⟨c, rfl, .inl trivial⟩
      · cases h

end Template

open Template

/-- A rejected text comes back whole, with a place in it at which the character to blame stands,
and the reader has never been outside the text. -/
theorem Sentence.parse_error_points (text : String) (origin : Option Origin) :
    (∀ r ∈ Reading.run (origin.bind Origin.intent) (.start text.toList), r.Inside text.toList) ∧
      ∀ e, Sentence.parse text origin = .error e →
        e.text = text ∧ 1 ≤ e.column ∧ e.column ≤ text.length ∧
          (⟨e.reason, e.column - 1⟩ : Fault).FoundIn text.toList
            (readTokens (origin.bind Origin.intent) text.toList) := by
  refine ⟨fun r hr => Reading.inside_of_mem_run hr, fun e he => ?_⟩
  rw [Sentence.parse] at he
  split at he
  next => cases he
  next fault hfault =>
    cases he
    have hfound := foundIn_of_readItems_eq_error hfault
    have ⟨c, hc, _⟩ := hfound
    have hlt := (List.getElem?_eq_some_iff.mp hc).1
    rw [String.length_toList] at hlt
    exact ⟨rfl, Nat.succ_pos _, hlt, hfound⟩

/-- The mark of a suffix behind a gap starts a token, and the column counts the backslash. -/
theorem Sentence.parse_error_points_strayMark :
    Sentence.parse "\\( :x" none = .error ⟨.suffixAlone, "\\( :x", 4, none, none⟩ ∧
      (⟨.suffixAlone, 3⟩ : Fault).FoundIn "\\( :x".toList (readTokens none "\\( :x".toList) := by
  have herror : Sentence.parse "\\( :x" none =
      .error ⟨.suffixAlone, "\\( :x", 4, none, none⟩ := by cbv
  exact ⟨herror, ((Sentence.parse_error_points "\\( :x" none).2 _ herror).2.2.2⟩

end Utterance
