import Mathlib.Algebra.BigOperators.Group.Multiset.Basic
import Utterance.Proofs.Template.EmptyWords

/-!
# What becomes of tags

A tag is put on the latest expression of its branch, in the place of the tag that this
expression may have already.  It has one only if the tag was read directly before, with
nothing but blanks between the two, because everything else that is read is a new
expression, or leaves the branch.  So a tag is lost exactly if another one follows it
(`tagFollows`).

In the count of a round the latest tag is left out as long as it may be lost
(`Reading.tags`); then every round adds the tag that it reads, unless another follows
(`Reading.tags_step`), and the tags in the tree are those that no other follows
(`tags_of_readItems`).
-/

namespace Utterance

/-! ## Tags in a tree -/

namespace Expr

/-- The tags in a tree. -/
def tags (e : Expr) : Multiset Tag := (e.nodes.filterMap tag : List Tag)

/-- The tags in a tree but that of its root. -/
def innerTags : Expr → Multiset Tag
  | seq _ _ items _ _ => (items.map tags).sum
  | _ => 0

theorem tags_nodesOf (items : List Expr) :
    ((nodesOf items).filterMap tag : Multiset Tag) = (items.map tags).sum := by
  induction items with
  | nil => rfl
  | cons e es ih =>
      rw [nodesOf, List.filterMap_append, ← Multiset.coe_add, ih, List.map_cons, List.sum_cons]
      rfl

theorem tags_eq (e : Expr) : e.tags = (e.tag.toList : Multiset Tag) + e.innerTags := by
  cases e with
  | seq k x items s g =>
      rw [innerTags, ← tags_nodesOf, Multiset.coe_add, tags, nodes, List.filterMap_cons]
      cases g <;> rfl
  | word t s g | rule r g | slot x n s g => cases g <;> rfl

theorem tags_of_tag_eq_none {e : Expr} (h : e.tag = none) : e.tags = e.innerTags := by
  rw [tags_eq, h, Option.toList_none, Multiset.coe_nil, zero_add]

@[simp] theorem innerTags_withTag (e : Expr) (t : Tag) : (e.withTag t).innerTags = e.innerTags := by
  cases e <;> rfl

@[simp] theorem tag_withTag (e : Expr) (t : Tag) : (e.withTag t).tag = some t := by
  cases e <;> rfl

@[simp] theorem tags_withTag (e : Expr) (t : Tag) : (e.withTag t).tags = {t} + e.innerTags := by
  rw [tags_eq, tag_withTag, innerTags_withTag]
  rfl

end Expr

namespace Template

theorem addsUp_tags : AddsUp Expr.tags :=
  fun _ _ _ _ => Expr.tags_of_tag_eq_none rfl

theorem tag_of_tokenExpr {l : List Glyph} {e : Expr} (h : tokenExpr l = .ok e) :
    e.tag = none ∧ e.tags = 0 := by
  obtain ⟨-, rfl⟩ | ⟨-, ⟨t, s, -, rfl⟩ | ⟨x, n, s, rfl⟩⟩ := tokenExpr_eq_ok h
  · exact ⟨rfl, rfl⟩
  · exact ⟨rfl, rfl⟩
  · exact ⟨rfl, rfl⟩

/-- Another tag comes next, behind blanks. -/
def tagFollows (cs : List Char) : Bool := (cs.dropWhile Text.isBlank).head? == some '\x7b'

/-! ## Branches -/

namespace Level

/-- All tags but that of the latest expression. -/
def settledTags (l : Level) : Multiset Tag :=
  sumOf Expr.tags l.finished +
    match l.current with
    | [] => 0
    | e :: es => e.innerTags + (es.map Expr.tags).sum

/-- An expression without a tag has none to lose. -/
theorem settledTags_of_tag_eq_none {l : Level} (h : ∀ e ∈ l.current.head?, e.tag = none) :
    l.settledTags = l.total Expr.tags := by
  rw [settledTags, total]
  cases hcurrent : l.current with
  | nil => rfl
  | cons e es =>
      have hnone : e.tag = none := h e (by rw [hcurrent]; rfl)
      rw [List.map_cons, List.sum_cons, Expr.tags_of_tag_eq_none hnone]

theorem settledTags_tagLast {t : Tag} {l tagged : Level} (h : l.tagLast? t = some tagged) :
    tagged.settledTags = l.settledTags := by
  cases hcurrent : l.current with
  | nil => simp [tagLast?, hcurrent] at h
  | cons e es =>
      rw [tagLast?, hcurrent] at h
      obtain rfl := Option.some.inj h
      simp [settledTags, hcurrent]

/-- A tag takes the place of the one that the latest expression has. -/
theorem tags_tagLast {t : Tag} {l tagged : Level} (h : l.tagLast? t = some tagged) :
    tagged.total Expr.tags = l.settledTags + {t} := by
  cases hcurrent : l.current with
  | nil => simp [tagLast?, hcurrent] at h
  | cons e es =>
      rw [tagLast?, hcurrent] at h
      obtain rfl := Option.some.inj h
      simp only [total, settledTags, hcurrent, List.map_cons, List.sum_cons, Expr.tags_withTag]
      rw [add_assoc ({t} : Multiset Tag), add_comm ({t} : Multiset Tag), ← add_assoc]

end Level

/-! ## Rounds -/

namespace Reading

variable {grammar : Option String} {r r' : Reading}

theorem tags_flush (hflushes : r.flushes = true) {base : Level}
    (h : r.level.flush r.pending = .ok base) :
    base.total Expr.tags = r.level.total Expr.tags := by
  rw [Level.total_flush (fun _ _ he => (tag_of_tokenExpr he).2) hflushes h]
  simp

/-- Only gaps leave the latest expression to be the latest. -/
theorem settledTags_flush (hflushes : r.flushes = true) {base : Level}
    (h : r.level.flush r.pending = .ok base) :
    base.settledTags =
      if r.pending.all Glyph.isGap then r.level.settledTags else r.level.total Expr.tags := by
  have htotal := tags_flush hflushes h
  rw [Level.flush, literalExprs_eq_mapM_tokens hflushes] at h
  obtain ⟨es, hes, h⟩ := Except.bind_eq_ok_iff.mp h
  have htokens : r.tokens = [] ↔ r.pending.all Glyph.isGap = true := by
    rw [tokens, if_pos hflushes, Text.splitRuns_eq_nil_iff]
    simp
  cases h
  split
  next hgaps =>
    rw [htokens.mpr hgaps] at hes
    cases hes
    rfl
  next hgaps =>
    have huntagged : ∀ e ∈ es, e.tag = none :=
      Except.Yields.mapM (fun l _ e he => (tag_of_tokenExpr he).1) es hes
    have hne : es ≠ [] := by
      have hlength := map_eq_map_of_mapM_eq_ok (g := fun _ => ()) (k := fun _ => ()) hes
        fun _ _ _ => rfl
      rintro rfl
      exact hgaps (htokens.mp (List.map_eq_nil_iff.mp hlength.symm))
    rw [← htotal]
    refine Level.settledTags_of_tag_eq_none fun e he => huntagged e ?_
    rw [List.head?_append_of_ne_nil _ (List.reverse_ne_nil_iff.mpr hne), List.head?_reverse] at he
    exact List.mem_of_mem_getLast? he

/-- The next tag will be put in the place of that of the latest expression, if it has one. -/
def retags (r : Reading) : Bool := r.pending.all Glyph.isGap && tagFollows r.rest

/-- The tags in all that has been read, but for one that the next tag takes the place of. -/
def tags (r : Reading) : Multiset Tag :=
  (if r.retags then r.level.settledTags else r.level.total Expr.tags) +
    (r.frames.map fun f => f.outer.total Expr.tags).sum

/-- The tag that is read in this round, and the text behind it. -/
def tag? (r : Reading) : Option (Tag × List Char) :=
  match r.rest with
  | '\x7b' :: rest => (readTag r.pos rest).toOption.map fun (t, n) => (t, rest.drop n)
  | _ => none

/-- The tag that this round adds: the one that is read, if no other follows. -/
def tagsAdded (r : Reading) : Multiset Tag :=
  ((r.tag?.toList.filter (!tagFollows ·.2)).map Prod.fst : List Tag)

theorem tagsAdded_of_tag? {t : Tag} {after : List Char} (h : r.tag? = some (t, after)) :
    r.tagsAdded = if tagFollows after then 0 else {t} := by
  rw [tagsAdded, h, Option.toList_some, List.filter_singleton]
  cases tagFollows after <;> rfl

theorem tagsAdded_eq_zero (h : r.tag? = none) : r.tagsAdded = 0 := by
  rw [tagsAdded, h]
  rfl

theorem tag?_eq_none {pos : Nat} {c : Char} (hc : c ≠ '\x7b') {rest : List Char}
    {frames : List Frame} {level : Level} {pending : List Glyph} :
    tag? ⟨pos, c :: rest, frames, level, pending⟩ = none := by
  rw [tag?]
  split
  next heq => exact absurd (List.cons.inj heq).1 hc
  next => rfl

theorem retags_eq_false {pos : Nat} {c : Char} (hblank : Text.isBlank c = false) (hc : c ≠ '\x7b')
    {rest : List Char} {frames : List Frame} {level : Level} {pending : List Glyph} :
    retags ⟨pos, c :: rest, frames, level, pending⟩ = false := by
  simp [retags, tagFollows, hblank, hc]

/-- Characters that wait are gaps, and then it is still the same that follows, or no tag is next
before and after. -/
theorem retags_of_waits (hwaits : r.flushes = false) (h : r.step grammar = .ok (.inr r')) :
    r'.level = r.level ∧ r'.frames = r.frames ∧ r'.retags = r.retags ∧ r.tag? = none := by
  obtain ⟨pos, cs, frames, level, pending⟩ := r
  cases cs with
  | nil => cases hwaits
  | cons c rest =>
      have hmeans := Mark.means_ofChar c
      cases hmark : Mark.ofChar c
      case opening | closing | rule | tag | bar => simp [flushes, hmark] at hwaits
      all_goals
        rw [hmark] at hmeans
        simp only [step, hmark] at h
      case escape =>
        obtain rfl := hmeans
        rw [retags_eq_false (by decide) (by decide), tag?_eq_none (by decide)]
        cases rest <;> cases h <;> simp [retags, tagFollows, Glyph.isGap]
      case colon =>
        obtain rfl := hmeans
        rw [retags_eq_false (by decide) (by decide), tag?_eq_none (by decide)]
        have hblank : Text.isBlank ':' = false := by decide
        split at h
        · split at h
          · cases h
          · cases h
            simp [retags, substitutionGlyphs, Glyph.isGap, hblank]
        · cases h
          simp [retags, Glyph.isGap, hblank]
      case literal =>
        have hc : c ≠ '\x7b' := by
          rintro rfl
          cases hmark
        cases h
        refine ⟨rfl, rfl, ?_, tag?_eq_none hc⟩
        cases hblank : Text.isBlank c with
        | true => simp [retags, tagFollows, Glyph.isGap, hblank]
        | false =>
            rw [retags_eq_false hblank hc]
            simp [retags, Glyph.isGap, hblank]

theorem tags_of_not_retags (h : r.retags = false) : r.tags = r.total Expr.tags := by
  rw [tags, h, if_neg Bool.false_ne_true, total]

/-- Nothing is left out where the latest expression has no tag. -/
theorem tags_of_tag_eq_none (h : ∀ e ∈ r.level.current.head?, e.tag = none) :
    r.tags = r.total Expr.tags := by
  rw [tags, Level.settledTags_of_tag_eq_none h, ite_self, total]

/-- At a mark other than that of a tag nothing is left out before, nor after the round if the
latest expression has no tag then, so only the totals matter. -/
theorem tags_eq_of_total {pos : Nat} {c : Char} (hblank : Text.isBlank c = false) (hc : c ≠ '\x7b')
    {rest : List Char} {frames : List Frame} {level : Level} {pending : List Glyph}
    (hlast : ∀ e ∈ r'.level.current.head?, e.tag = none)
    (htotal : r'.total Expr.tags = total Expr.tags ⟨pos, c :: rest, frames, level, pending⟩) :
    r'.tags = tags ⟨pos, c :: rest, frames, level, pending⟩ +
      tagsAdded ⟨pos, c :: rest, frames, level, pending⟩ := by
  rw [tags_of_tag_eq_none hlast, tagsAdded_eq_zero (tag?_eq_none hc),
    tags_of_not_retags (retags_eq_false hblank hc), htotal, add_zero]

/-- Every round but the last adds the tag that it reads, if no other follows. -/
theorem tags_step (h : r.step grammar = .ok (.inr r')) : r'.tags = r.tags + r.tagsAdded := by
  cases hflushes : r.flushes with
  | false =>
      obtain ⟨hlevel, hframes, hretags, hnone⟩ := retags_of_waits hflushes h
      simp [tags, tagsAdded, hlevel, hframes, hretags, hnone]
  | true =>
      have hround := moves_of_step h
      have htags {base : Level} (hflush : r.level.flush r.pending = .ok base) :=
        tags_flush hflushes hflush
      have hsettled {base : Level} (hflush : r.level.flush r.pending = .ok base) :=
        settledTags_flush hflushes hflush
      cases hround with
      | wait _ _ hwaits =>
          rw [hwaits] at hflushes
          cases hflushes
      | opening b hflush =>
          refine tags_eq_of_total (by cases b <;> decide) (by cases b <;> decide) (by simp) ?_
          simp [total, htags hflush]
      | @closing pos rest f frames level pending base kind items suffix n hflush hitems hsuffix =>
          have hsequence := Level.total_push_sequence addsUp_tags (Bracket.sequences hitems)
          have hempty : Expr.emptyWord.tags = 0 := rfl
          refine tags_eq_of_total (by cases f.bracket <;> decide) (by cases f.bracket <;> decide)
            (by simp [Level.push, Expr.tag]) ?_
          simp only [total, hsequence, hempty, ite_self, add_zero, htags hflush, List.map_cons,
            List.sum_cons]
          rw [add_comm (f.outer.total _), add_assoc]
      | rule hflush hread =>
          obtain ⟨ref, rfl⟩ := exists_eq_rule_of_readRule hread
          have hrule : (Expr.rule ref none).tags = 0 := rfl
          refine tags_eq_of_total (by decide) (by decide) (by simp [Level.push, Expr.tag]) ?_
          simp [total, htags hflush, hrule]
      | @tag pos rest frames level pending base tagged t n hflush hread htag =>
          have hbase : base.settledTags = if retags ⟨pos, '\x7b' :: rest, frames, level, pending⟩
              then level.settledTags else level.total Expr.tags := by
            rw [hsettled hflush]
            simp [retags, tagFollows, Text.isBlank]
          have hread :
              tag? ⟨pos, '\x7b' :: rest, frames, level, pending⟩ = some (t, rest.drop n) := by
            simp [tag?, hread, Except.toOption]
          have hnext : retags ⟨pos + 1 + n, rest.drop n, frames, tagged, []⟩ =
              tagFollows (rest.drop n) := rfl
          -- the tag that was left out is the one that is replaced, and the new one is left out in
          -- its turn if another follows
          rw [tags, tags, tagsAdded_of_tag? hread, hnext, Level.settledTags_tagLast htag,
            Level.tags_tagLast htag, ← hbase]
          cases tagFollows (rest.drop n) with
          | true => exact (add_zero _).symm
          | false => exact add_right_comm _ _ _
      | bar hflush =>
          refine tags_eq_of_total (by decide) (by decide) (by simp [Level.nextBranch]) ?_
          simp [total, htags hflush]

theorem tags_ends {branches : List (List Expr)} (h : Ends r branches) :
    sumOf Expr.tags branches = r.tags + r.tagsAdded := by
  cases h with
  | @flush pos level pending base hflush =>
      have hflushes : flushes ⟨pos, [], [], level, pending⟩ = true := rfl
      have hnone : tag? ⟨pos, [], [], level, pending⟩ = none := rfl
      have hlast : retags ⟨pos, [], [], level, pending⟩ = false := by simp [retags, tagFollows]
      rw [Level.sumOf_branches, tags_flush hflushes hflush, tags_of_not_retags hlast,
        tagsAdded_eq_zero hnone, add_zero]
      exact (add_zero _).symm

end Reading

/-- The tags that the reader reads, each with the text behind it, in order. -/
def tagsRead (grammar : Option String) (text : List Char) : List (Tag × List Char) :=
  (Reading.run grammar (.start text)).filterMap Reading.tag?

variable {grammar : Option String} {text : List Char}

theorem exists_brace_of_readTag {pos : Nat} {cs : List Char} {t : Tag} {n : Nat}
    (h : readTag pos cs = .ok (t, n)) : ∃ inside, cs = inside ++ '\x7d' :: cs.drop n := by
  rw [readTag] at h
  split at h
  next => cases h
  next glyphs m hglyphs =>
    obtain ⟨inside, after, rfl, rfl⟩ := tagGlyphs_brace hglyphs
    dsimp only at h
    split_ifs at h
    cases h
    exact ⟨inside, by simp⟩

/-- A tag that is read stands in the text, between its braces. -/
theorem braced_of_mem_tagsRead {p : Tag × List Char} (h : p ∈ tagsRead grammar text) :
    ∃ before inside, text = before ++ '\x7b' :: inside ++ '\x7d' :: p.2 := by
  obtain ⟨r, hr, hp⟩ := List.mem_filterMap.mp h
  have hstands := (Reading.inside_of_mem_run hr).stands.drop_eq
  rw [Reading.tag?] at hp
  split at hp
  next rest hrest =>
    obtain ⟨⟨t, n⟩, hread, rfl⟩ := Option.map_eq_some_iff.mp hp
    obtain ⟨inside, hinside⟩ := exists_brace_of_readTag (Except.toOption_eq_some_iff.mp hread)
    refine ⟨text.take r.pos, inside, ?_⟩
    dsimp only
    rw [List.append_assoc, List.cons_append, ← hinside, ← hrest, ← hstands, List.take_append_drop]
  next => cases hp

/-- In a text that is accepted, a tag is read wherever the reader comes to a brace. -/
theorem length_tagsRead {branches : List (List Expr)}
    (h : (Reading.start text).read grammar = .ok branches) :
    (tagsRead grammar text).length =
      (Reading.run grammar (.start text)).countP (·.rest.head? == some '\x7b') := by
  rw [tagsRead, List.length_filterMap_eq_countP]
  refine List.countP_congr fun r hr => ?_
  have hread := (Reading.read_eq_of_mem_run r hr).trans h
  obtain ⟨pos, cs, frames, level, pending⟩ := r
  rw [beq_iff_eq]
  constructor
  · intro hsome
    rw [Reading.tag?] at hsome
    split at hsome
    next heq => rw [heq, List.head?_cons]
    next => cases hsome
  · intro hbrace
    obtain ⟨rest, rfl⟩ : ∃ rest, cs = '\x7b' :: rest := List.head?_eq_some_iff.mp hbrace
    rw [Reading.read_eq_step] at hread
    obtain ⟨next, hstep, -⟩ := Except.bind_eq_ok_iff.mp hread
    obtain ⟨base, -, hstep⟩ := Except.bind_eq_ok_iff.mp hstep
    obtain ⟨⟨t, n⟩, htag, -⟩ := Except.bind_eq_ok_iff.mp hstep
    simp [Reading.tag?, htag, Except.toOption]

/-- The tags in the trees are those that no other tag follows. -/
theorem tags_of_readItems {items : List Expr} (h : readItems grammar text = .ok items) :
    (items.map Expr.tags).sum =
      (((tagsRead grammar text).filter (!tagFollows ·.2)).map Prod.fst : List Tag) := by
  obtain ⟨branches, hread, hsum⟩ := addsUp_tags.sum_map_of_readItems h
  have hstart : (Reading.start text).tags = 0 :=
    (Reading.tags_of_tag_eq_none (by simp [Reading.start])).trans (Reading.total_start _ text)
  rw [hsum, Reading.sum_run (sumOf Expr.tags) (fun _ _ => Reading.tags_step)
    (fun _ _ => Reading.tags_ends) hread, hstart, zero_add, tagsRead]
  generalize Reading.run grammar (.start text) = rs
  induction rs with
  | nil => rfl
  | cons r rs ih =>
      rw [List.map_cons, List.sum_cons, ih, Reading.tagsAdded, Multiset.coe_add,
        ← List.map_append, ← List.filter_append, List.filterMap_cons]
      cases r.tag? <;> rfl

end Template

open Template

theorem Sentence.coe_tags_of_parse {text : String} {origin : Option Origin} {s : Sentence}
    (h : Sentence.parse text origin = .ok s) :
    s.toExpr.tags = (((tagsRead (origin.bind Origin.intent) text.toList).filter
      (!tagFollows ·.2)).map Prod.fst : List Tag) :=
  (addsUp_tags _ _ _ _).trans (tags_of_readItems (readItems_of_parse h))

/-- The reader reads a tag wherever it comes to an opening brace, and a tag that is read stands in
the text.  The tags in the tree are those that are read without those that another tag follows, so
they are as many as those that are read exactly if no tag follows another. -/
theorem Sentence.tags_of_parse {text : String} {origin : Option Origin} {s : Sentence}
    (h : Sentence.parse text origin = .ok s) :
    (tagsRead (origin.bind Origin.intent) text.toList).length =
        (Reading.run (origin.bind Origin.intent) (.start text.toList)).countP
          (·.rest.head? == some '\x7b') ∧
      (∀ p ∈ tagsRead (origin.bind Origin.intent) text.toList, ∃ before inside,
        text.toList = before ++ '\x7b' :: inside ++ '\x7d' :: p.2) ∧
      (s.toExpr.nodes.filterMap Expr.tag).Perm
        (((tagsRead (origin.bind Origin.intent) text.toList).filter
          (!tagFollows ·.2)).map Prod.fst) ∧
      (s.toExpr.nodes.countP (·.tag.isSome) =
          (tagsRead (origin.bind Origin.intent) text.toList).length ↔
        ∀ p ∈ tagsRead (origin.bind Origin.intent) text.toList, tagFollows p.2 = false) := by
  have hperm := Multiset.coe_eq_coe.mp (coe_tags_of_parse h)
  obtain ⟨branches, hread, -⟩ := Except.bind_eq_ok_iff.mp (readItems_of_parse h)
  refine ⟨length_tagsRead hread, fun p => braced_of_mem_tagsRead, hperm, ?_⟩
  rw [← List.length_filterMap_eq_countP, hperm.length_eq, List.length_map,
    List.length_filter_eq_length_iff]
  simp

/-- The tags of a word and of the group around it are both in the tree. -/
theorem Sentence.tags_of_parse_lamp :
    ∃ s, Sentence.parse "(big lamp\x7bthing\x7d)\x7bplace\x7d" none = .ok s ∧
      (s.toExpr.nodes.filterMap Expr.tag).Perm [⟨"thing", {}⟩, ⟨"place", {}⟩] ∧
      s.toExpr.nodes.countP (·.tag.isSome) = 2 := by
  have hparse : Sentence.parse "(big lamp\x7bthing\x7d)\x7bplace\x7d" none =
      .ok ⟨"(big lamp\x7bthing\x7d)\x7bplace\x7d",
        [.seq .group "big lamp\x7bthing\x7d"
          [.plain "big", .word "lamp" {} (some ⟨"thing", {}⟩)] {} (some ⟨"place", {}⟩)]⟩ := by cbv
  have hread : tagsRead none "(big lamp\x7bthing\x7d)\x7bplace\x7d".toList =
      [(⟨"thing", {}⟩, ")\x7bplace\x7d".toList), (⟨"place", {}⟩, [])] := by decide +kernel
  obtain ⟨-, -, hperm, hcount⟩ := Sentence.tags_of_parse hparse
  rw [Option.bind_none, hread] at hperm hcount
  exact ⟨_, hparse, hperm, hcount.mpr (by decide)⟩

/-- The second of two tags takes the place of the first, and the word has only one. -/
theorem Sentence.parse_twoTags :
    ∃ s, Sentence.parse "a\x7bx\x7d\x7by\x7d" none = .ok s ∧
      (tagsRead none "a\x7bx\x7d\x7by\x7d".toList).map Prod.fst = [⟨"x", {}⟩, ⟨"y", {}⟩] ∧
      s.toExpr.nodes.filterMap Expr.tag = [⟨"y", {}⟩] ∧
      s.toExpr.nodes.countP (·.tag.isSome) = 1 := by
  have hparse : Sentence.parse "a\x7bx\x7d\x7by\x7d" none =
      .ok ⟨"a\x7bx\x7d\x7by\x7d", [.word "a" {} (some ⟨"y", {}⟩)]⟩ := by cbv
  exact ⟨_, hparse, by decide +kernel, by decide +kernel, by decide +kernel⟩

end Utterance
