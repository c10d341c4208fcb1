import Utterance.Proofs.Template.Readings

/-!
# How trees are put together

A tree is put together in few ways: from a token, from a rule reference, by a tag, and as a
sequence of what stands between two brackets or bars.  A property of trees that these keep
(`ReaderKeeps`) is one of all trees in the readings of a text, round by round
(`Reading.All.moves`), and of what the text is parsed into (`Sentence.parse_yields_kept`).

Square brackets alone add something of their own, the empty word; `squaresOf` lists the texts
that stand between them.
-/

namespace Utterance

namespace Template

open Utterance.Except (Yields yields_ok yields_error)

/-! ## Square brackets -/

namespace Reading

/-- The text between the square brackets that are closed in this round. -/
def squares (r : Reading) : List (List Char) :=
  match r.rest, r.frames with
  | ']' :: rest, ⟨.square, _, inner, _⟩ :: _ => [inner.take (inner.length - (rest.length + 1))]
  | _, _ => []

/-- Square brackets are closed at closing brackets only. -/
theorem squares_eq_nil {pos : Nat} {c : Char} (hc : c ≠ ']') {rest : List Char}
    {frames : List Frame} {level : Level} {pending : List Glyph} :
    squares ⟨pos, c :: rest, frames, level, pending⟩ = [] := by
  rw [squares]
  split
  next heq _ => exact absurd (List.cons.inj heq).1 hc
  next => rfl

theorem squares_closer (pos : Nat) (f : Frame) (rest : List Char) (frames : List Frame)
    (level : Level) (pending : List Glyph) :
    squares ⟨pos, f.bracket.closer :: rest, f :: frames, level, pending⟩ =
      if f.bracket = .square then [f.inner.take (f.inner.length - (rest.length + 1))] else [] := by
  obtain ⟨b, _, inner, outer⟩ := f
  cases b <;> rfl

end Reading

/-- The texts between the square brackets of a text, in the order in which they are closed. -/
def squaresOf (grammar : Option String) (text : List Char) : List (List Char) :=
  (Reading.run grammar (.start text)).flatMap Reading.squares

/-! ## Sequences -/

/-- The expression of a branch is its only item, or a group of its items. -/
theorem branchExpr_eq_ok {pos : Nat} {items : List Expr} {e : Expr}
    (h : branchExpr pos items = .ok e) :
    items = [e] ∨ ∃ text, e = .seq .group text items {} none := by
  match items, h with
  | [e'], h =>
      cases h
      exact .inl rfl
  | _ :: _ :: _, h =>
      cases h
      exact .inr ⟨_, rfl⟩

/-- What the branches between a pair of brackets are made into. -/
inductive Sequences (pos : Nat) : List (List Expr) → Bracket → SequenceKind × List Expr → Prop where
  | group (items : List Expr) : Sequences pos [items] .round (.group, items)
  | alternative {branches items} (hitems : branches.mapM (branchExpr pos) = .ok items) :
      Sequences pos branches .round (.alternative, items)
  | empty : Sequences pos [[]] .square (.alternative, [Expr.emptyWord])
  | optional {branches items} (hitems : branches.mapM (branchExpr pos) = .ok items) :
      Sequences pos branches .square (.alternative, items ++ [Expr.emptyWord])

theorem Bracket.sequences {b : Bracket} {pos : Nat} {branches : List (List Expr)}
    {r : SequenceKind × List Expr} (h : b.sequence pos branches = .ok r) :
    Sequences pos branches b r := by
  cases b with
  | round =>
      rw [Bracket.sequence.eq_def] at h
      dsimp only at h
      split at h
      · cases h
        exact .group _
      · obtain ⟨items, hitems, h⟩ := Except.bind_eq_ok_iff.mp h
        cases h
        exact .alternative hitems
  | square =>
      rw [Bracket.sequence.eq_def] at h
      dsimp only at h
      split at h
      · cases h
        exact .empty
      · obtain ⟨items, hitems, h⟩ := Except.bind_eq_ok_iff.mp h
        cases h
        exact .optional hitems

/-! ## Properties that are kept -/

/-- The reader of `text` makes only trees with the property, as long as it puts them together
from such trees. -/
structure ReaderKeeps (grammar : Option String) (text : List Char) (P : Expr → Prop) : Prop where
  token : ∀ l ∈ readTokens grammar text, Yields P (tokenExpr l)
  rule : ∀ pos cs, Yields (fun r => P r.1) (readRule grammar pos cs)
  withTag : ∀ e t, P e → P (e.withTag t)
  seq : ∀ kind x items s, (∀ e ∈ items, P e) → P (.seq kind x items s none)
  optional : ∀ inner ∈ squaresOf grammar text, ∀ items s, (∀ e ∈ items, P e) →
    P (.seq .alternative (sourceText inner) (items ++ [Expr.emptyWord]) s none)

/-- All trees in the branches that have been read have the property. -/
structure Level.All (P : Expr → Prop) (level : Level) : Prop where
  finished : ∀ items ∈ level.finished, ∀ e ∈ items, P e
  current : ∀ e ∈ level.current, P e

/-- All trees that have been read have the property. -/
structure Reading.All (P : Expr → Prop) (r : Reading) : Prop where
  level : r.level.All P
  frames : ∀ f ∈ r.frames, f.outer.All P

variable {P : Expr → Prop} {grammar : Option String} {text : List Char}

namespace Level

variable {level : Level}

theorem all_empty : All P {} := ⟨by simp, by simp⟩

theorem All.push (h : level.All P) {e : Expr} (he : P e) : (level.push e).All P :=
  ⟨h.finished, List.forall_mem_cons.mpr ⟨he, h.current⟩⟩

theorem All.nextBranch (h : level.All P) : level.nextBranch.All P :=
  ⟨List.forall_mem_cons.mpr ⟨by simpa using h.current, h.finished⟩, by simp [Level.nextBranch]⟩

theorem All.branches (h : level.All P) : ∀ items ∈ level.branches, ∀ e ∈ items, P e := by
  intro items hitems
  exact h.nextBranch.finished items (List.mem_reverse.mp hitems)

theorem All.tagLast (h : level.All P) (htag : ∀ e t, P e → P (e.withTag t)) {t : Tag}
    {tagged : Level} (htagged : level.tagLast? t = some tagged) : tagged.All P := by
  cases hcurrent : level.current with
  | nil => simp [tagLast?, hcurrent] at htagged
  | cons e es =>
      have hall := h.current
      rw [hcurrent, List.forall_mem_cons] at hall
      rw [tagLast?, hcurrent] at htagged
      obtain rfl := Option.some.inj htagged
      exact ⟨h.finished, List.forall_mem_cons.mpr ⟨htag e t hall.1, hall.2⟩⟩

end Level

namespace ReaderKeeps

theorem branchExpr (h : ReaderKeeps grammar text P) (pos : Nat) {items : List Expr}
    (hitems : ∀ e ∈ items, P e) : Yields P (branchExpr pos items) := by
  intro e he
  obtain rfl | ⟨x, rfl⟩ := branchExpr_eq_ok he
  · exact hitems e (List.mem_singleton_self e)
  · exact h.seq _ _ _ _ hitems

theorem mapM_branchExpr (h : ReaderKeeps grammar text P) (pos : Nat)
    {branches : List (List Expr)} (hbranches : ∀ items ∈ branches, ∀ e ∈ items, P e) :
    Yields (fun items => ∀ e ∈ items, P e) (branches.mapM (Template.branchExpr pos)) :=
  Yields.mapM fun items hitems => h.branchExpr pos (hbranches items hitems)

end ReaderKeeps

namespace Reading

variable {r r' : Reading}

/-- The words and slots that are read from waiting characters have the property. -/
theorem All.flush (hall : r.All P) (h : ReaderKeeps grammar text P)
    (hr : r ∈ run grammar (start text)) (hflushes : r.flushes = true) : Yields (Level.All P) (r.level.flush r.pending) := by
  have htokens : Yields (fun es => ∀ e ∈ es, P e) (literalExprs r.pending.reverse) := by
    rw [literalExprs_eq_mapM_tokens hflushes]
    exact Yields.mapM fun l hl => h.token l (List.mem_flatMap.mpr ⟨r, hr, hl⟩)
  refine htokens.bind fun es hes => yields_ok ⟨hall.level.finished, fun e he => ?_⟩
  rcases List.mem_append.mp he with he | he
  · exact hes e (List.mem_reverse.mp he)
  · exact hall.level.current e he

theorem All.sequence (h : ReaderKeeps grammar text P) {pos fpos : Nat} {rest : List Char} {f : Frame}
    {frames : List Frame} {level : Level} {pending : List Glyph} {branches : List (List Expr)}
    {kind : SequenceKind} {items : List Expr}
    (hr : ⟨pos, f.bracket.closer :: rest, f :: frames, level, pending⟩ ∈ run grammar (start text))
    (hbranches : ∀ items ∈ branches, ∀ e ∈ items, P e)
    (hitems : f.bracket.sequence fpos branches = .ok (kind, items)) (s : Suffix) :
    P (.seq kind (sourceText (f.inner.take (f.inner.length - (rest.length + 1)))) items s none) := by
  have hsquare (hb : f.bracket = .square) :
      f.inner.take (f.inner.length - (rest.length + 1)) ∈ squaresOf grammar text :=
    List.mem_flatMap.mpr ⟨_, hr, by rw [squares_closer, if_pos hb]; exact List.mem_singleton_self _⟩
  have hsequences := Bracket.sequences hitems
  generalize hb : f.bracket = b at hsequences hsquare
  cases hsequences with
  | group => exact h.seq _ _ _ _ (hbranches items (List.mem_singleton_self items))
  | alternative hmap => exact h.seq _ _ _ _ (h.mapM_branchExpr fpos hbranches _ hmap)
  | empty => exact h.optional _ (hsquare rfl) [] s (by simp)
  | optional hmap =>
      exact h.optional _ (hsquare rfl) _ s (h.mapM_branchExpr fpos hbranches _ hmap)

/-- One round keeps the property. -/
theorem All.moves (hall : r.All P) (h : ReaderKeeps grammar text P)
    (hr : r ∈ run grammar (start text)) (hmoves : Moves grammar r r') : r'.All P := by
  cases hmoves with
  | wait => exact ⟨hall.level, hall.frames⟩
  | opening b hflush =>
      have hbase := hall.flush h hr (flushes_opener b _ _ _ _ _) _ hflush
      exact ⟨Level.all_empty, List.forall_mem_cons.mpr ⟨hbase, hall.frames⟩⟩
  | @closing pos rest f frames level pending base kind items s n hflush hitems hsuffix =>
      obtain ⟨houter, hframes⟩ := List.forall_mem_cons.mp hall.frames
      have hbase := hall.flush h hr (flushes_closer _ _ _ _ _ _) _ hflush
      exact ⟨houter.push (All.sequence h hr hbase.branches hitems s), hframes⟩
  | rule hflush hread =>
      exact ⟨(hall.flush h hr rfl _ hflush).push (h.rule _ _ _ hread), hall.frames⟩
  | tag hflush hread htag =>
      exact ⟨(hall.flush h hr rfl _ hflush).tagLast h.withTag htag, hall.frames⟩
  | bar hflush => exact ⟨(hall.flush h hr rfl _ hflush).nextBranch, hall.frames⟩

theorem all_of_mem_run (h : ReaderKeeps grammar text P) (hr : r ∈ run grammar (start text)) : r.All P :=
  forall_mem_run ⟨Level.all_empty, by simp [start]⟩
    (fun _ ha _ hall hmoves => hall.moves h ha hmoves) r hr

end Reading

theorem readItems_yields_kept (h : ReaderKeeps grammar text P) :
    Yields (fun items => ∀ e ∈ items, P e) (readItems grammar text) := by
  have hbranches : Yields (fun branches => ∀ items ∈ branches, ∀ e ∈ items, P e)
      (readBranches grammar 0 text [] {} []) := by
    intro branches hread
    have hread : (Reading.start text).read grammar = .ok branches := hread
    obtain ⟨r, hr, hends⟩ := Reading.exists_ends_of_read_eq_ok hread
    cases hends with
    | flush hflush => exact ((Reading.all_of_mem_run h hr).flush h hr rfl _ hflush).branches
  refine hbranches.bind fun branches hall => ?_
  split
  · exact yields_ok (hall _ (List.mem_singleton_self _))
  · refine (h.mapM_branchExpr 0 hall).bind fun items hitems => ?_
    exact yields_ok (List.forall_mem_singleton.mpr (h.seq _ _ _ _ hitems))

end Template

open Template

theorem Sentence.readItems_of_parse {text : String} {origin : Option Origin} {s : Sentence}
    (h : Sentence.parse text origin = .ok s) :
    readItems (origin.bind Origin.intent) text.toList = .ok s.items := by
  rw [Sentence.parse] at h
  split at h
  next items hitems =>
    cases h
    exact hitems
  next => cases h

/-- What the reader keeps is true of all items that it comes to. -/
theorem Sentence.parse_yields_kept {P : Expr → Prop} {text : String} {origin : Option Origin}
    (h : ReaderKeeps (origin.bind Origin.intent) text.toList P) :
    Except.Yields (fun s => ∀ e ∈ s.items, P e) (Sentence.parse text origin) :=
  fun _ hs => readItems_yields_kept h _ (readItems_of_parse hs)

end Utterance
