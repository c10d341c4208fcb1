import Mathlib.Algebra.GroupWithZero.Nat
import Utterance.Proofs.Failing
import Utterance.Proofs.Template.Writing

/-!
# The reader step by step

The reader is a loop, and a `Reading` is what it knows between two rounds.  One round either
goes on to another reading, and `Moves` says to which, or it stops with a fault (`Fails`) or
with the branches of the whole text (`Ends`).  The readings of a text are those
that the reader comes to from the start of the text (`run`): what every round keeps is true of
all of them (`forall_mem_run`), and what every round adds sums up over them (`sum_run`).

A run of waiting characters between two gaps is a token.  The tokens of a text are those that
wait where a bracket, a bar or the end of the text comes (`readTokens`).
-/

namespace Utterance.Template

/-! ## Marks -/

/-- The characters that have the meaning. -/
def Mark.Means : Mark → Char → Prop
  | .escape, c => c = '\\'
  | .opening b, c => c = b.opener
  | .closing, c => c = ')' ∨ c = ']' ∨ c = '>' ∨ c = '\x7d'
  | .rule, c => c = '<'
  | .tag, c => c = '\x7b'
  | .bar, c => c = '|'
  | .colon, c => c = ':'
  | .literal, _ => True

theorem Mark.means_ofChar (c : Char) : (Mark.ofChar c).Means c := by
  simp only [Mark.ofChar]
  split_ifs <;> simp_all [Mark.Means, Bracket.opener, or_assoc]

/-! ## Characters at their places -/

/-- The glyphs are characters of `cs`, which starts at `pos`, each at its own place. -/
def StandIn (pos : Nat) (cs : List Char) (l : List Glyph) : Prop :=
  ∀ g ∈ l, pos ≤ g.pos ∧ cs[g.pos - pos]? = some g.char

theorem standIn_substitutionGlyphs (pos : Nat) (text : List Char) :
    StandIn pos (':' :: text) (substitutionGlyphs pos text) := by
  intro g hg
  simp only [substitutionGlyphs, List.mem_append, List.mem_map, List.mem_reverse,
    List.mem_singleton] at hg
  rcases hg with ⟨⟨c, p⟩, hmem, rfl⟩ | rfl
  · obtain ⟨hle, hchar⟩ := List.mk_mem_zipIdx_iff_le_and_getElem?_sub.mp hmem
    refine ⟨by dsimp only; omega, ?_⟩
    rw [show p - pos = p - (pos + 1) + 1 by omega, List.getElem?_cons_succ, hchar]
  · simp

theorem throughParenthesis?_prefix {cs text : List Char} (h : throughParenthesis? cs = some text) :
    text <+: cs := by
  rw [throughParenthesis?] at h
  split at h
  next hmem =>
    obtain ⟨before, after, rfl, hbefore⟩ :=
      List.eq_append_cons_of_mem (List.contains_iff_mem.mp hmem)
    have hopen : ∀ c ∈ before, (c != ')') = true := fun c hc =>
      bne_iff_ne.mpr fun heq => hbefore (heq ▸ hc)
    rw [List.takeWhile_append_of_pos hopen] at h
    obtain rfl := Option.some.inj h
    exact ⟨after, by simp⟩
  next => cases h

/-! ## Rounds -/

/-- A state of the reader: what is left of the text and where that starts, the open brackets,
the branches read so far, and the characters that wait, newest first. -/
structure Reading where
  pos : Nat
  rest : List Char
  frames : List Frame
  level : Level
  pending : List Glyph

namespace Reading

def start (text : List Char) : Reading := ⟨0, text, [], {}, []⟩

variable (grammar : Option String)

def read (r : Reading) : Except Fault (List (List Expr)) :=
  readBranches grammar r.pos r.rest r.frames r.level r.pending

/-- One round of the reader: the branches of the text at its end, or what is read next. -/
def step : Reading → Except Fault (List (List Expr) ⊕ Reading)
  | ⟨_, [], [], level, pending⟩ => do
    let level ← level.flush pending
    pure (.inl level.branches)
  | ⟨_, [], f :: _, _, _⟩ => .error ⟨.unclosed f.bracket.closer, f.pos⟩
  | ⟨pos, c :: rest, frames, level, pending⟩ =>
    match Mark.ofChar c with
    | .escape =>
      match rest with
      | [] => .ok (.inr ⟨pos + 1, [], frames, level, pending⟩)
      | e :: rest => .ok (.inr ⟨pos + 2, rest, frames, level, ⟨e, true, pos + 1⟩ :: pending⟩)
    | .opening b => do
      let level ← level.flush pending
      pure (.inr ⟨pos + 1, rest, ⟨b, pos, rest, level⟩ :: frames, {}, []⟩)
    | .closing =>
      match frames with
      | [] => .error ⟨.unexpected c, pos⟩
      | f :: frames =>
        if c == f.bracket.closer then do
          let level ← level.flush pending
          let text := sourceText (f.inner.take (f.inner.length - (rest.length + 1)))
          let (kind, items) ← f.bracket.sequence f.pos level.branches
          let (suffix, n) ← readSuffix (pos + 1) rest {}
          let e := .seq kind text items suffix none
          pure (.inr ⟨pos + 1 + n, rest.drop n, frames, f.outer.push e, []⟩)
        else .error ⟨.unexpected c, pos⟩
    | .rule => do
      let level ← level.flush pending
      let (e, n) ← readRule grammar pos rest
      pure (.inr ⟨pos + 1 + n, rest.drop n, frames, level.push e, []⟩)
    | .tag => do
      let level ← level.flush pending
      let (t, n) ← readTag pos rest
      match level.tagLast? t with
      | none => .error ⟨.tagAlone, pos⟩
      | some level => pure (.inr ⟨pos + 1 + n, rest.drop n, frames, level, []⟩)
    | .bar => do
      let level ← level.flush pending
      pure (.inr ⟨pos + 1, rest, frames, level.nextBranch, []⟩)
    | .colon =>
      if opensSubstitution pending rest then
        match throughParenthesis? rest with
        | none => .error ⟨.missingParenthesis, pos⟩
        | some text =>
          .ok (.inr ⟨pos + 1 + text.length, rest.drop text.length, frames, level,
            substitutionGlyphs pos text ++ pending⟩)
      else .ok (.inr ⟨pos + 1, rest, frames, level, ⟨c, false, pos⟩ :: pending⟩)
    | .literal => .ok (.inr ⟨pos + 1, rest, frames, level, ⟨c, false, pos⟩ :: pending⟩)

/-- To read on is to do one round, and then to read on from where it ends. -/
theorem read_eq_step (r : Reading) :
    r.read grammar = r.step grammar >>= Sum.elim .ok (read grammar) := by
  obtain ⟨pos, cs, frames, level, pending⟩ := r
  rw [read, readBranches.eq_def]
  cases cs with
  | nil =>
      cases frames with
      | nil => cases hflush : level.flush pending <;> simp [step, hflush] <;> rfl
      | cons f frames => rfl
  | cons c rest =>
      cases hmark : Mark.ofChar c with
      | escape => cases rest <;> simp only [step, hmark] <;> rfl
      | closing =>
          cases frames with
          | nil => simp only [step, hmark]; rfl
          | cons f frames =>
              simp only [step, hmark]
              split
              · simp only [bind_assoc]; rfl
              · rfl
      | tag =>
          simp only [step, hmark, bind_assoc]
          refine bind_congr fun level => bind_congr fun tagged => ?_
          cases level.tagLast? tagged.1 <;> rfl
      | colon =>
          simp only [step, hmark]
          split
          · cases throughParenthesis? rest <;> rfl
          · rfl
      | opening | rule | bar | literal =>
          simp only [step, hmark, bind_assoc]; rfl

/-- The waiting characters are made into words and slots in this round. -/
def flushes (r : Reading) : Bool :=
  match r.rest with
  | [] => true
  | c :: _ =>
    match Mark.ofChar c with
    | .escape | .colon | .literal => false
    | _ => true

theorem flushes_opener (b : Bracket) (pos : Nat) (rest : List Char) (frames : List Frame)
    (level : Level) (pending : List Glyph) :
    flushes ⟨pos, b.opener :: rest, frames, level, pending⟩ = true := by
  cases b <;> rfl

theorem flushes_closer (b : Bracket) (pos : Nat) (rest : List Char) (frames : List Frame)
    (level : Level) (pending : List Glyph) :
    flushes ⟨pos, b.closer :: rest, frames, level, pending⟩ = true := by
  cases b <;> rfl

/-- What one round may do: it takes characters that wait, or it comes to a bracket, a rule, a tag
or a bar. -/
inductive Moves : Reading → Reading → Prop where
  | wait {pos taken more frames level pending glyphs} (htaken : taken ≠ [])
      (hglyphs : StandIn pos taken glyphs)
      (hwaits : flushes ⟨pos, taken ++ more, frames, level, pending⟩ = false) :
      Moves ⟨pos, taken ++ more, frames, level, pending⟩
        ⟨pos + taken.length, more, frames, level, glyphs ++ pending⟩
  | opening {pos rest frames level pending base} (b : Bracket)
      (hflush : level.flush pending = .ok base) :
      Moves ⟨pos, b.opener :: rest, frames, level, pending⟩
        ⟨pos + 1, rest, ⟨b, pos, rest, base⟩ :: frames, {}, []⟩
  | closing {pos rest f frames level pending base kind items suffix n}
      (hflush : level.flush pending = .ok base)
      (hitems : f.bracket.sequence f.pos base.branches = .ok (kind, items))
      (hsuffix : readSuffix (pos + 1) rest {} = .ok (suffix, n)) :
      Moves ⟨pos, f.bracket.closer :: rest, f :: frames, level, pending⟩
        ⟨pos + 1 + n, rest.drop n, frames, f.outer.push (.seq kind
          (sourceText (f.inner.take (f.inner.length - (rest.length + 1)))) items suffix none), []⟩
  | rule {pos rest frames level pending base e n} (hflush : level.flush pending = .ok base)
      (hread : readRule grammar pos rest = .ok (e, n)) :
      Moves ⟨pos, '<' :: rest, frames, level, pending⟩
        ⟨pos + 1 + n, rest.drop n, frames, base.push e, []⟩
  | tag {pos rest frames level pending base tagged t n} (hflush : level.flush pending = .ok base)
      (hread : readTag pos rest = .ok (t, n)) (htag : base.tagLast? t = some tagged) :
      Moves ⟨pos, '\x7b' :: rest, frames, level, pending⟩
        ⟨pos + 1 + n, rest.drop n, frames, tagged, []⟩
  | bar {pos rest frames level pending base} (hflush : level.flush pending = .ok base) :
      Moves ⟨pos, '|' :: rest, frames, level, pending⟩
        ⟨pos + 1, rest, frames, base.nextBranch, []⟩

/-- How the reader stops with a fault. -/
inductive Fails : Reading → Fault → Prop where
  | unclosed {pos f frames level pending} :
      Fails ⟨pos, [], f :: frames, level, pending⟩ ⟨.unclosed f.bracket.closer, f.pos⟩
  | unexpected {pos c rest frames level pending} :
      Fails ⟨pos, c :: rest, frames, level, pending⟩ ⟨.unexpected c, pos⟩
  | token {r fault} (hflushes : r.flushes = true)
      (hflush : r.level.flush r.pending = .error fault) : Fails r fault
  | sequence {pos c rest f frames level pending branches fault}
      (hitems : f.bracket.sequence f.pos branches = .error fault) :
      Fails ⟨pos, c :: rest, f :: frames, level, pending⟩ fault
  | suffix {pos c rest frames level pending fault}
      (hsuffix : readSuffix (pos + 1) rest {} = .error fault) :
      Fails ⟨pos, c :: rest, frames, level, pending⟩ fault
  | rule {pos rest frames level pending fault} (hread : readRule grammar pos rest = .error fault) :
      Fails ⟨pos, '<' :: rest, frames, level, pending⟩ fault
  | tag {pos rest frames level pending fault} (hread : readTag pos rest = .error fault) :
      Fails ⟨pos, '\x7b' :: rest, frames, level, pending⟩ fault
  | tagAlone {pos rest frames level pending} :
      Fails ⟨pos, '\x7b' :: rest, frames, level, pending⟩ ⟨.tagAlone, pos⟩
  | substitution {pos rest frames level pending} :
      Fails ⟨pos, ':' :: rest, frames, level, pending⟩ ⟨.missingParenthesis, pos⟩

/-- How the reader stops with branches. -/
inductive Ends : Reading → List (List Expr) → Prop where
  | flush {pos level pending base} (hflush : level.flush pending = .ok base) :
      Ends ⟨pos, [], [], level, pending⟩ base.branches

/-- How the outcome of a round comes about. -/
inductive Rounds (r : Reading) : Except Fault (List (List Expr) ⊕ Reading) → Prop where
  | moves {r'} (h : Moves grammar r r') : Rounds r (.ok (.inr r'))
  | fails {fault} (h : Fails grammar r fault) : Rounds r (.error fault)
  | ends {branches} (h : Ends r branches) : Rounds r (.ok (.inl branches))

variable {grammar} {r r' : Reading} {fault : Fault} {branches : List (List Expr)}

theorem Moves.glyph {pos c rest frames level pending}
    (hwaits : flushes ⟨pos, c :: rest, frames, level, pending⟩ = false) :
    Moves grammar ⟨pos, c :: rest, frames, level, pending⟩
      ⟨pos + 1, rest, frames, level, ⟨c, false, pos⟩ :: pending⟩ := by
  have hglyph : StandIn pos [c] [⟨c, false, pos⟩] := by simp [StandIn]
  exact .wait (List.cons_ne_nil c []) hglyph hwaits

/-- A round in which the waiting characters cannot be made into words and slots fails. -/
theorem Rounds.flush {f : Level → Except Fault (List (List Expr) ⊕ Reading)}
    (hflushes : r.flushes = true)
    (h : ∀ base, r.level.flush r.pending = .ok base → Rounds grammar r (f base)) :
    Rounds grammar r (r.level.flush r.pending >>= f) := by
  cases hflush : r.level.flush r.pending with
  | error fault => exact .fails (.token hflushes hflush)
  | ok base => exact h base hflush

theorem rounds_step (grammar : Option String) (r : Reading) : Rounds grammar r (r.step grammar) := by
  obtain ⟨pos, cs, frames, level, pending⟩ := r
  cases cs with
  | nil =>
      cases frames with
      | nil => exact .flush rfl fun base hflush => .ends (.flush hflush)
      | cons f frames => exact .fails .unclosed
  | cons c rest =>
      have hmeans := Mark.means_ofChar c
      cases hmark : Mark.ofChar c
      all_goals
        rw [hmark] at hmeans
        simp only [step, hmark]
      case escape =>
        obtain rfl := hmeans
        cases rest with
        | nil =>
            have hnone : StandIn pos ['\\'] [] := fun _ hg => absurd hg List.not_mem_nil
            exact .moves (.wait (List.cons_ne_nil '\\' []) hnone rfl)
        | cons e rest =>
            have hglyph : StandIn pos ['\\', e] [⟨e, true, pos + 1⟩] := by simp [StandIn]
            exact .moves (.wait (List.cons_ne_nil '\\' [e]) hglyph rfl)
      case opening b =>
        obtain rfl := hmeans
        exact .flush (by simp only [flushes, hmark]) fun base hflush => .moves (.opening b hflush)
      case closing =>
        cases frames with
        | nil => exact .fails .unexpected
        | cons f frames =>
            dsimp only
            split
            next hcloser =>
              obtain rfl := beq_iff_eq.mp hcloser
              refine .flush (by simp only [flushes, hmark]) fun base hflush => ?_
              cases hitems : f.bracket.sequence f.pos base.branches with
              | error fault => exact .fails (.sequence hitems)
              | ok items =>
                  cases hsuffix : readSuffix (pos + 1) rest {} with
                  | error fault => exact .fails (.suffix hsuffix)
                  | ok suffix => exact .moves (.closing hflush hitems hsuffix)
            next => exact .fails .unexpected
      case rule =>
        obtain rfl := hmeans
        refine .flush rfl fun base hflush => ?_
        cases hread : readRule grammar pos rest with
        | error fault => exact .fails (.rule hread)
        | ok e => exact .moves (.rule hflush hread)
      case tag =>
        obtain rfl := hmeans
        refine .flush rfl fun base hflush => ?_
        cases hread : readTag pos rest with
        | error fault => exact .fails (.tag hread)
        | ok t =>
            dsimp only [bind, Except.bind]
            cases htag : base.tagLast? t.1 with
            | none => exact .fails .tagAlone
            | some tagged => exact .moves (.tag hflush hread htag)
      case bar =>
        obtain rfl := hmeans
        exact .flush rfl fun base hflush => .moves (.bar hflush)
      case colon =>
        obtain rfl := hmeans
        split
        · split
          · exact .fails .substitution
          next text htext =>
            obtain ⟨more, rfl⟩ := throughParenthesis?_prefix htext
            rw [List.drop_left, Nat.add_assoc, Nat.add_comm 1]
            exact .moves (.wait (List.cons_ne_nil ':' text) (standIn_substitutionGlyphs pos text) rfl)
        · exact .moves (.glyph rfl)
      case literal => exact .moves (.glyph (by simp only [flushes, hmark]))

theorem Moves.length_lt (h : Moves grammar r r') : r'.rest.length < r.rest.length := by
  cases h with
  | wait htaken =>
      have := List.length_pos_iff.mpr htaken
      simp only [List.length_append]
      omega
  | _ => simp only [List.length_drop, List.length_cons]; omega

theorem moves_of_step (h : r.step grammar = .ok (.inr r')) : Moves grammar r r' := by
  have hround := rounds_step grammar r
  rw [h] at hround
  cases hround with
  | moves h => exact h

/-! ## The readings of a text -/

/-- The reading and all that the reader comes to after it, in order. -/
def run (grammar : Option String) (r : Reading) : List Reading :=
  r :: match _hstep : r.step grammar with
    | .ok (.inr r') => run grammar r'
    | _ => []
termination_by r.rest.length
decreasing_by exact (moves_of_step _hstep).length_lt

theorem run_of_step (h : r.step grammar = .ok (.inr r')) : run grammar r = r :: run grammar r' := by
  rw [run]
  split
  next r'' h' =>
    rw [h'] at h
    cases h
    rfl
  next h' => exact absurd h (h' r')

theorem run_of_stops (h : ∀ r', r.step grammar ≠ .ok (.inr r')) : run grammar r = [r] := by
  rw [run]
  split
  next r' h' => exact absurd h' (h r')
  next => rfl

theorem mem_run_self (r : Reading) : r ∈ run grammar r := by
  rw [run]
  exact List.mem_cons_self

/-- Induction along the readings that follow one another. -/
theorem run_rec (grammar : Option String) {motive : Reading → Prop}
    (moves : ∀ r r', r.step grammar = .ok (.inr r') → motive r' → motive r)
    (stops : ∀ r, (∀ r', r.step grammar ≠ .ok (.inr r')) → motive r) (r : Reading) : motive r := by
  induction r using run.induct grammar with
  | case1 r ih =>
      by_cases h : ∃ r', r.step grammar = .ok (.inr r')
      · obtain ⟨r', h⟩ := h
        exact moves r r' h (ih r' h)
      · exact stops r (not_exists.mp h)

/-- What holds first and is kept by every round holds of all readings. -/
theorem forall_mem_run {I : Reading → Prop} (h : I r)
    (hround : ∀ a ∈ run grammar r, ∀ b, I a → Moves grammar a b → I b) :
    ∀ a ∈ run grammar r, I a := by
  induction r using run_rec grammar with
  | moves r r' hstep ih =>
      rw [run_of_step hstep, List.forall_mem_cons] at hround ⊢
      exact ⟨h, ih (hround.1 r' h (moves_of_step hstep)) hround.2⟩
  | stops r hstops =>
      rw [run_of_stops hstops]
      exact List.forall_mem_singleton.mpr h

/-- To read on from any of the readings gives the same. -/
theorem read_eq_of_mem_run : ∀ a ∈ run grammar r, a.read grammar = r.read grammar := by
  induction r using run_rec grammar with
  | moves r r' hstep ih =>
      have hread : r.read grammar = r'.read grammar := by
        rw [read_eq_step, hstep]
        rfl
      rw [run_of_step hstep, List.forall_mem_cons]
      exact ⟨rfl, fun a ha => (ih a ha).trans hread.symm⟩
  | stops r hstops =>
      rw [run_of_stops hstops]
      exact List.forall_mem_singleton.mpr rfl

/-- What comes of a text comes of the last of its readings. -/
theorem exists_last (grammar : Option String) (r : Reading) :
    ∃ a ∈ run grammar r, (∃ fault, r.read grammar = .error fault ∧ Fails grammar a fault) ∨
      ∃ branches, r.read grammar = .ok branches ∧ Ends a branches := by
  induction r using run_rec grammar with
  | moves r r' hstep ih =>
      obtain ⟨a, ha, hlast⟩ := ih
      rw [read_eq_step, hstep, run_of_step hstep]
      exact ⟨a, List.mem_cons_of_mem r ha, hlast⟩
  | stops r hstops =>
      refine ⟨r, mem_run_self r, ?_⟩
      have hround := rounds_step grammar r
      rw [read_eq_step]
      generalize r.step grammar = outcome at hround hstops
      cases hround with
      | moves h => exact absurd rfl (hstops _)
      | fails h => exact .inl ⟨_, rfl, h⟩
      | ends h => exact .inr ⟨_, rfl, h⟩

theorem exists_fails_of_read_eq_error (h : r.read grammar = .error fault) :
    ∃ a ∈ run grammar r, Fails grammar a fault := by
  obtain ⟨a, ha, ⟨_, hread, hfails⟩ | ⟨_, hread, -⟩⟩ := exists_last grammar r
  · cases h.symm.trans hread
    exact ⟨a, ha, hfails⟩
  · cases h.symm.trans hread

theorem exists_ends_of_read_eq_ok (h : r.read grammar = .ok branches) :
    ∃ a ∈ run grammar r, Ends a branches := by
  obtain ⟨a, ha, ⟨_, hread, -⟩ | ⟨_, hread, hends⟩⟩ := exists_last grammar r
  · cases h.symm.trans hread
  · cases h.symm.trans hread
    exact ⟨a, ha, hends⟩

/-- What every round adds sums up. -/
theorem sum_run {M : Type} [AddCommMonoid M] (total : List (List Expr) → M)
    {size added : Reading → M}
    (hround : ∀ a b, a.step grammar = .ok (.inr b) → size b = size a + added a)
    (hend : ∀ a branches, Ends a branches → total branches = size a + added a)
    (h : r.read grammar = .ok branches) :
    total branches = size r + ((run grammar r).map added).sum := by
  induction r using run_rec grammar with
  | moves r r' hstep ih =>
      rw [read_eq_step, hstep] at h
      rw [run_of_step hstep, List.map_cons, List.sum_cons, ih h, hround r r' hstep, add_assoc]
  | stops r hstops =>
      have hround := rounds_step grammar r
      rw [read_eq_step] at h
      rw [run_of_stops hstops, List.map_singleton, List.sum_cons, List.sum_nil, add_zero]
      generalize r.step grammar = outcome at hround hstops h
      cases hround with
      | moves _ => exact absurd rfl (hstops _)
      | fails _ => cases h
      | ends hends =>
          cases h
          exact hend r _ hends

/-- Where a text is accepted, all that waits is made into words and slots. -/
theorem exists_flush_eq_ok (hflushes : r.flushes = true) (h : r.read grammar = .ok branches) :
    ∃ base, r.level.flush r.pending = .ok base := by
  have hround := rounds_step grammar r
  rw [read_eq_step] at h
  generalize r.step grammar = outcome at hround h
  cases hround with
  | moves hmoves =>
      cases hmoves with
      | wait _ _ hwaits =>
          rw [hwaits] at hflushes
          cases hflushes
      | opening _ hflush | closing hflush | rule hflush | tag hflush | bar hflush =>
          exact ⟨_, hflush⟩
  | fails _ => cases h
  | ends hends =>
      cases hends with
      | flush hflush => exact ⟨_, hflush⟩

/-! ## Tokens -/

/-- The runs of waiting characters without gaps, where they are made into words and slots. -/
def tokens (r : Reading) : List (List Glyph) :=
  if r.flushes then Text.splitRuns Glyph.isGap [] r.pending.reverse else []

theorem literalExprs_eq_mapM_tokens (h : r.flushes = true) :
    literalExprs r.pending.reverse = r.tokens.mapM tokenExpr := by
  rw [literalExprs, tokens, if_pos h]

theorem mem_pending_of_mem_tokens {l : List Glyph} {g : Glyph} (hl : l ∈ r.tokens) (hg : g ∈ l) :
    g ∈ r.pending := by
  rw [tokens] at hl
  split at hl
  · rcases (Text.of_mem_splitRuns hl).2 g hg with hmem | ⟨hmem, -⟩
    · cases hmem
    · exact List.mem_reverse.mp hmem
  · cases hl

/-- If the waiting characters cannot be made into words and slots, one of the tokens cannot. -/
theorem exists_token_of_flush_eq_error (h : r.flushes = true)
    (hflush : r.level.flush r.pending = .error fault) :
    ∃ l ∈ r.tokens, tokenExpr l = .error fault := by
  rw [Level.flush, literalExprs_eq_mapM_tokens h] at hflush
  obtain herr | ⟨_, -, herr⟩ := Except.bind_eq_error.mp hflush
  · exact exists_mem_of_mapM_error herr
  · cases herr

/-- Where a text is accepted, every token is a word or a slot. -/
theorem exists_tokenExpr_eq_ok (h : r.read grammar = .ok branches) :
    ∀ l ∈ r.tokens, ∃ e, tokenExpr l = .ok e := by
  intro l hl
  cases hflushes : r.flushes with
  | false => simp [tokens, hflushes] at hl
  | true =>
      obtain ⟨base, hflush⟩ := exists_flush_eq_ok hflushes h
      rw [Level.flush, literalExprs_eq_mapM_tokens hflushes] at hflush
      obtain ⟨es, hes, -⟩ := Except.bind_eq_ok_iff.mp hflush
      exact exists_eq_ok_of_mapM_eq_ok hes l hl

end Reading

/-- The tokens of a text, in order, up to where the reader stops. -/
def readTokens (grammar : Option String) (text : List Char) : List (List Glyph) :=
  (Reading.run grammar (.start text)).flatMap Reading.tokens

end Utterance.Template
