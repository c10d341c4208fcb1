import Utterance.Proofs.Compile.Building

/-!
# Readings of a template

A reading of an expression makes all its choices: one item of every
alternative, one value of every slot, and for every rule its first body.
`Reads` derives the readings from the templates and the table themselves; how a
reference is resolved there depends only on the grammar it stands in, and
unfolding plays no part.

The marks that a reading spells are fixed (`Reading.marks`), and so are the
words that it hears (`Reading.heard`).  An unfolded tree spells exactly the
marks of the readings of its expression (`accounted`, `mem_language_of_reads`),
provided that nothing in it is broken, which is so whenever it can be built
(`whole_of_buildIntents`).
-/

namespace Utterance

open Utterance.Graph

/-! ## Readings -/

/-- An expression with all choices made.  A slot's name is kept. -/
inductive Reading where
  | word (text : String) (suffix : Suffix) (tag : Option Tag)
  | node (slot : Option String) (parts : List Reading) (suffix : Suffix) (tag : Option Tag)
deriving Repr, Inhabited

/-- The grammar that a reference means where the grammar is `here`. -/
def RuleRef.grammarIn (r : RuleRef) (here : String) : String :=
  match r.grammar with
  | some g => if g.isEmpty then here else g
  | none => here

mutual

/-- The readings of an expression that stands in the grammar `here`. -/
inductive Reads (t : Table) : String → Expr → Reading → Prop where
  | word {here text : String} {suffix : Suffix} {tag : Option Tag} :
      Reads t here (.word text suffix tag) (.word text suffix tag)
  | group {here text : String} {items : List Expr} {rs : List Reading} {suffix : Suffix}
      {tag : Option Tag} :
      ReadsInTurn t here items rs →
      Reads t here (.seq .group text items suffix tag) (.node none rs suffix tag)
  | alternative {here text : String} {items : List Expr} {e : Expr} {r : Reading}
      {suffix : Suffix} {tag : Option Tag} :
      e ∈ items → Reads t here e r →
      Reads t here (.seq .alternative text items suffix tag) (.node none [r] suffix tag)
  | rule {here : String} {ref : RuleRef} {body : Expr} {rest : List Expr} {r : Reading}
      {tag : Option Tag} :
      t.get? (ruleKey (ref.grammarIn here) ref.name) = some (body :: rest) →
      Reads t (ref.grammarIn here) body r →
      Reads t here (.rule ref tag) (.node none [r] {} tag)
  | slot {here text name : String} {values : List Expr} {e : Expr} {r : Reading}
      {suffix : Suffix} {tag : Option Tag} :
      t.get? (slotKey name) = some values → e ∈ values → Reads t here e r →
      Reads t here (.slot text name suffix tag) (.node (some name) [r] suffix tag)

/-- The readings of expressions one after the other. -/
inductive ReadsInTurn (t : Table) : String → List Expr → List Reading → Prop where
  | nil {here : String} : ReadsInTurn t here [] []
  | cons {here : String} {e : Expr} {es : List Expr} {r : Reading} {rs : List Reading} :
      Reads t here e r → ReadsInTurn t here es rs → ReadsInTurn t here (e :: es) (r :: rs)

end

namespace Reading

/-- The marks with what suffix and tag say around them. -/
def enclose (hidden : Bool) (suffix : Suffix) (tag : Option Tag) (ms : List Mark) : List Mark :=
  saidMarks (labelsBefore suffix tag) ++ ms ++ saidMarks (labelsAfter hidden suffix tag)

mutual

/-- What a reading spells. -/
def marks (hidden : Bool) : Reading → List Mark
  | word text suffix tag =>
    enclose hidden suffix tag (wordMarks (hidden || isReplaced suffix tag) text)
  | node slot parts suffix tag =>
    enclose hidden suffix tag
      (marksInTurn (hidden || isReplaced suffix tag) parts ++ slot.toList.flatMap sourceMarks)

/-- What readings spell one after the other. -/
def marksInTurn (hidden : Bool) : List Reading → List Mark
  | [] => []
  | r :: rs => marks hidden r ++ marksInTurn hidden rs

end

mutual

/-- The words that a reading hears; the empty word is silent. -/
def heard : Reading → List String
  | word text _ _ => if text = "" then [] else [text]
  | node _ parts _ _ => heardInTurn parts

def heardInTurn : List Reading → List String
  | [] => []
  | r :: rs => heard r ++ heardInTurn rs

end

end Reading

/-- A sentence of an intent derives the words that one of its readings hears. -/
def Sentence.Derives (t : Table) (intent : String) (s : Sentence) (words : List String) : Prop :=
  ∃ r, Reads t intent s.toExpr r ∧ r.heard = words

/-! ## What marks hear -/

/-- The words heard on the way through marks. -/
def heardOf (ms : List Mark) : List String := (ms.map Mark.input).filter (· ≠ "")

@[simp] theorem heardOf_append (ms ns : List Mark) :
    heardOf (ms ++ ns) = heardOf ms ++ heardOf ns := by
  rw [heardOf, List.map_append, List.filter_append]
  rfl

theorem heardOf_spelled (m : Mark) :
    heardOf m.spelled = if m.input = "" then [] else [m.input] := by
  rw [Mark.spelled]
  split
  next h => rw [h]; rfl
  next => simp [heardOf, List.filter_cons]

@[simp] theorem heardOf_saidMarks (labels : List String) : heardOf (saidMarks labels) = [] := by
  induction labels with
  | nil => rfl
  | cons label rest ih =>
      rw [← List.singleton_append, saidMarks_append, heardOf_append, ih, saidMarks,
        List.flatMap_singleton, heardOf_spelled, if_pos rfl]
      rfl

@[simp] theorem heardOf_sourceMarks (name : String) : heardOf (sourceMarks name) = [] :=
  heardOf_saidMarks _

mutual

/-- Whatever a reading says, it hears its words. -/
theorem Reading.heardOf_marks : ∀ (r : Reading) (hidden : Bool),
    heardOf (r.marks hidden) = r.heard
  | .word text suffix tag, hidden => by
      rw [marks, heard, enclose, heardOf_append, heardOf_append, heardOf_saidMarks,
        heardOf_saidMarks, List.append_nil, List.nil_append]
      exact heardOf_spelled _
  | .node slot parts suffix tag, hidden => by
      have hslot : heardOf (slot.toList.flatMap sourceMarks) = [] := by
        cases slot with
        | none => rfl
        | some name => simp
      rw [marks, heard, enclose, heardOf_append, heardOf_append, heardOf_append,
        heardOf_saidMarks, heardOf_saidMarks, hslot, heardOf_marksInTurn parts, List.append_nil,
        List.append_nil, List.nil_append]

theorem Reading.heardOf_marksInTurn : ∀ (rs : List Reading) (hidden : Bool),
    heardOf (marksInTurn hidden rs) = heardInTurn rs
  | [], _ => rfl
  | r :: rs, hidden => by
      rw [marksInTurn, heardInTurn, heardOf_append, heardOf_marks r, heardOf_marksInTurn rs]

end

/-! ## Membership in the languages of trees -/

theorem mem_wrappedMarks {hidden : Bool} {suffix : Suffix} {tag : Option Tag}
    {L : Language Mark} {ms : List Mark} :
    ms ∈ wrappedMarks hidden suffix tag L ↔
      ∃ l ∈ L, Reading.enclose hidden suffix tag l = ms := by
  rw [wrappedMarks, Language.mem_mul]
  refine ⟨?_, ?_⟩
  · rintro ⟨_, hl, _, rfl, rfl⟩
    obtain ⟨_, rfl, l, hlL, rfl⟩ := Language.mem_mul.mp hl
    exact ⟨l, hlL, rfl⟩
  · rintro ⟨l, hl, rfl⟩
    exact ⟨_, Language.mem_mul.mpr ⟨_, rfl, l, hl, rfl⟩, _, rfl, rfl⟩

theorem mem_languageOfEach {expand hidden : Bool} {ms : List Mark} {ts : List Tree} :
    ms ∈ languageOfEach expand hidden ts ↔ ∃ t ∈ ts, ms ∈ t.language expand hidden := by
  induction ts with
  | nil => simp [languageOfEach, Language.notMem_zero]
  | cons t ts ih => rw [languageOfEach, Language.mem_add, ih, List.exists_mem_cons_iff]

/-! ## The grammar of a scope -/

/-- The grammar that a scope stands in. -/
def Scope.here (c : Scope) : String := c.grammar.getD c.intent

theorem unfold_rule_of_get? {t : Table} {c : Scope} {ref : RuleRef} {bodies : List Expr}
    (h : t.get? (c.keyOf ref) = some bodies) (tag : Option Tag) :
    unfold t c (.rule ref tag) = .rule (c.keyOf ref)
      (if c.rules.contains (c.keyOf ref) then [.broken (.recursive (c.keyOf ref))]
        else unfoldAll t (c.enterRule (c.keyOf ref) (c.grammarOf ref)) bodies) tag := by
  rw [unfold]
  split
  next hnone => rw [h] at hnone; cases hnone
  next bodies' hsome =>
    rw [h] at hsome
    cases hsome
    split
    next ho => rw [if_neg (by rw [ho]; exact Bool.false_ne_true)]
    next ho => rw [if_pos (Bool.of_not_eq_false ho)]

theorem unfold_rule_of_none {t : Table} {c : Scope} {ref : RuleRef}
    (h : t.get? (c.keyOf ref) = none) (tag : Option Tag) :
    unfold t c (.rule ref tag)
      = .rule (c.keyOf ref) [.broken (.unresolved (c.keyOf ref))] tag := by
  rw [unfold]
  split
  next => rfl
  next hsome => rw [h] at hsome; cases hsome

theorem unfold_slot_of_none {t : Table} {name : String} (h : t.get? (slotKey name) = none)
    (c : Scope) (text : String) (suffix : Suffix) (tag : Option Tag) :
    unfold t c (.slot text name suffix tag)
      = .slot name [.broken (.unresolved (slotKey name))] suffix tag := by
  rw [unfold]
  split
  next => rfl
  next hsome => rw [h] at hsome; cases hsome

theorem unfold_slot_of_get? {t : Table} {c : Scope} {name : String} {values : List Expr}
    (h : t.get? (slotKey name) = some values) (text : String) (suffix : Suffix)
    (tag : Option Tag) :
    unfold t c (.slot text name suffix tag) = .slot name
      (if c.slots.contains (slotKey name) then [.broken (.recursive (slotKey name))]
        else unfoldAll t (c.enterSlot (slotKey name)) values) suffix tag := by
  rw [unfold]
  split
  next hnone => rw [h] at hnone; cases hnone
  next values' hsome =>
    rw [h] at hsome
    cases hsome
    split
    next ho => rw [if_neg (by rw [ho]; exact Bool.false_ne_true)]
    next ho => rw [if_pos (Bool.of_not_eq_false ho)]

/-! ## What an unfolded tree spells comes from a reading -/

/-- The readings account for all that an expression spells in a scope. -/
def Accounted (t : Table) (c : Scope) (e : Expr) : Prop :=
  ∀ {hidden : Bool} {ms : List Mark}, ms ∈ (unfold t c e).language true hidden →
    ∃ r, Reads t c.here e r ∧ r.marks hidden = ms

theorem exists_readsInTurn {t : Table} {c : Scope} {hidden : Bool} :
    ∀ {es : List Expr} {ms : List Mark}, (∀ e ∈ es, Accounted t c e) →
      ms ∈ languageInTurn true hidden (unfoldAll t c es) →
      ∃ rs, ReadsInTurn t c.here es rs ∧ Reading.marksInTurn hidden rs = ms
  | [], ms, _, hms => by
      rw [unfoldAll, languageInTurn, Language.mem_one] at hms
      exact ⟨[], .nil, hms.symm⟩
  | e :: es, ms, hes, hms => by
      rw [unfoldAll, languageInTurn, Language.mem_mul] at hms
      obtain ⟨l, hl, m, hm, rfl⟩ := hms
      obtain ⟨r, hr, rfl⟩ := hes e List.mem_cons_self hl
      obtain ⟨rs, hrs, rfl⟩ :=
        exists_readsInTurn (fun e he => hes e (List.mem_cons_of_mem _ he)) hm
      exact ⟨r :: rs, .cons hr hrs, rfl⟩

theorem exists_reads_of_mem_each {t : Table} {c : Scope} {hidden : Bool} {es : List Expr}
    {ms : List Mark} (hes : ∀ e ∈ es, Accounted t c e)
    (hms : ms ∈ languageOfEach true hidden (unfoldAll t c es)) :
    ∃ e ∈ es, ∃ r, Reads t c.here e r ∧ r.marks hidden = ms := by
  rw [unfoldAll_eq_map, mem_languageOfEach] at hms
  obtain ⟨_, hmem, hms⟩ := hms
  obtain ⟨e, he, rfl⟩ := List.mem_map.mp hmem
  exact ⟨e, he, hes e he hms⟩

/-- A reference to something broken spells nothing. -/
theorem not_mem_language_rule_broken {hidden : Bool} {key : String} {err : ReferenceError}
    {tag : Option Tag} {ms : List Mark} :
    ms ∉ (Tree.rule key [.broken err] tag).language true hidden := by
  rw [Tree.language, mem_wrappedMarks]
  rintro ⟨l, hl, -⟩
  rw [Tree.language] at hl
  exact Language.notMem_zero l hl

theorem not_mem_language_slot_broken {hidden : Bool} {name : String} {err : ReferenceError}
    {suffix : Suffix} {tag : Option Tag} {ms : List Mark} :
    ms ∉ (Tree.slot name [.broken err] suffix tag).language true hidden := by
  rw [Tree.language, mem_wrappedMarks]
  rintro ⟨_, hl, -⟩
  obtain ⟨l, hl, -⟩ := Language.mem_mul.mp hl
  obtain ⟨_, hmem, hl⟩ := mem_languageOfEach.mp hl
  obtain rfl := List.mem_singleton.mp hmem
  rw [Tree.language] at hl
  exact Language.notMem_zero l hl

/-- The marks of a node with a single part. -/
theorem Reading.marks_node_singleton (hidden : Bool) (slot : Option String) (r : Reading)
    (suffix : Suffix) (tag : Option Tag) :
    (node slot [r] suffix tag).marks hidden = enclose hidden suffix tag
      (r.marks (hidden || isReplaced suffix tag) ++ slot.toList.flatMap sourceMarks) := by
  rw [marks, marksInTurn, marksInTurn, List.append_nil]

/-- Whatever an unfolded expression spells is spelled by one of its readings. -/
theorem accounted (t : Table) : ∀ (c : Scope) (e : Expr), Accounted t c e := by
  refine (unfold.mutual_induct t (Accounted t) (fun c es => ∀ e ∈ es, Accounted t c e)
    ?word ?seq ?ruleMissing ?ruleClosed ?ruleOpen ?slotMissing ?slotClosed ?slotOpen ?nil
    ?cons).1
  case word =>
    intro c text suffix tag hidden ms hms
    rw [unfold, Tree.language, mem_wrappedMarks] at hms
    obtain ⟨_, rfl, rfl⟩ := hms
    exact ⟨_, .word, rfl⟩
  case seq =>
    intro c kind text items suffix tag ih hidden ms hms
    rw [unfold] at hms
    cases kind with
    | group =>
        rw [Tree.language, mem_wrappedMarks] at hms
        obtain ⟨l, hl, rfl⟩ := hms
        obtain ⟨rs, hrs, rfl⟩ := exists_readsInTurn ih hl
        refine ⟨_, .group hrs, ?_⟩
        rw [Reading.marks, Option.toList, List.flatMap_nil, List.append_nil]
    | alternative =>
        rw [Tree.language, mem_wrappedMarks] at hms
        obtain ⟨l, hl, rfl⟩ := hms
        obtain ⟨e, he, r, hr, rfl⟩ := exists_reads_of_mem_each ih hl
        refine ⟨_, .alternative he hr, ?_⟩
        rw [Reading.marks_node_singleton, Option.toList, List.flatMap_nil, List.append_nil]
  case ruleMissing =>
    intro c ref tag key hnone hidden ms hms
    rw [unfold_rule_of_none hnone] at hms
    exact (not_mem_language_rule_broken hms).elim
  case ruleClosed =>
    intro c ref tag key bodies hbodies hclosed ih hidden ms hms
    rw [unfold_rule_of_get? hbodies, hclosed, if_neg Bool.false_ne_true] at hms
    cases bodies with
    | nil =>
        rw [unfoldAll, Tree.language, mem_wrappedMarks] at hms
        obtain ⟨l, hl, -⟩ := hms
        exact (Language.notMem_zero l hl).elim
    | cons body rest =>
        rw [unfoldAll, Tree.language, mem_wrappedMarks] at hms
        obtain ⟨l, hl, rfl⟩ := hms
        obtain ⟨r, hr, rfl⟩ := ih body List.mem_cons_self hl
        refine ⟨_, .rule hbodies hr, ?_⟩
        rw [Reading.marks_node_singleton, Option.toList, List.flatMap_nil, List.append_nil]
  case ruleOpen =>
    intro c ref tag key bodies hbodies hopen hidden ms hms
    rw [unfold_rule_of_get? hbodies, if_pos (Bool.of_not_eq_false hopen)] at hms
    exact (not_mem_language_rule_broken hms).elim
  case slotMissing =>
    intro c text name suffix tag key hnone hidden ms hms
    rw [unfold_slot_of_none hnone] at hms
    exact (not_mem_language_slot_broken hms).elim
  case slotClosed =>
    intro c text name suffix tag key values hvalues hclosed ih hidden ms hms
    rw [unfold_slot_of_get? hvalues, hclosed, if_neg Bool.false_ne_true, Tree.language,
      mem_wrappedMarks] at hms
    obtain ⟨_, hl, rfl⟩ := hms
    obtain ⟨l, heach, _, rfl, rfl⟩ := Language.mem_mul.mp hl
    obtain ⟨e, he, r, hr, rfl⟩ := exists_reads_of_mem_each ih heach
    refine ⟨_, .slot hvalues he hr, ?_⟩
    rw [Reading.marks_node_singleton, Option.toList, List.flatMap_singleton]
  case slotOpen =>
    intro c text name suffix tag key values hvalues hopen hidden ms hms
    rw [unfold_slot_of_get? hvalues, if_pos (Bool.of_not_eq_false hopen)] at hms
    exact (not_mem_language_slot_broken hms).elim
  case nil =>
    intro c e he
    exact (List.not_mem_nil he).elim
  case cons =>
    intro c e es ihe ihes e' he'
    rcases List.mem_cons.mp he' with rfl | he'
    · exact ihe
    · exact ihes e' he'

/-! ## What a reading spells is spelled by the unfolded tree -/

mutual

/-- A whole tree spells the marks of every reading. -/
theorem mem_language_of_reads {t : Table} : ∀ {here : String} {e : Expr} {r : Reading},
    Reads t here e r → ∀ {c : Scope}, c.here = here → (unfold t c e).Whole →
      ∀ hidden, r.marks hidden ∈ (unfold t c e).language true hidden
  | _, _, _, .word, c, _, _, hidden => by
      rw [unfold, Tree.language, mem_wrappedMarks]
      exact ⟨_, rfl, rfl⟩
  | _, _, _, .group hrs, c, hc, hwhole, hidden => by
      rw [unfold, Tree.Whole] at hwhole
      rw [unfold, Tree.language, mem_wrappedMarks]
      refine ⟨_, mem_languageInTurn_of_reads hrs hc hwhole _, ?_⟩
      rw [Reading.marks, Option.toList, List.flatMap_nil, List.append_nil]
  | _, _, _, .alternative he hr, c, hc, hwhole, hidden => by
      rw [unfold, Tree.Whole, unfoldAll_eq_map] at hwhole
      rw [unfold, Tree.language, mem_wrappedMarks, unfoldAll_eq_map]
      have hmem := List.mem_map_of_mem (f := unfold t c) he
      refine ⟨_, mem_languageOfEach.mpr ⟨_, hmem,
        mem_language_of_reads hr hc (hwhole.whole_of_mem hmem) _⟩, ?_⟩
      rw [Reading.marks_node_singleton, Option.toList, List.flatMap_nil, List.append_nil]
  | _, .rule ref tag, _, .rule hbodies hr, c, hc, hwhole, hidden => by
      subst hc
      rw [unfold_rule_of_get? hbodies] at hwhole ⊢
      by_cases hopen : c.rules.contains (c.keyOf ref) = true
      -- a reference to an open rule is broken, and a whole tree has none
      · rw [if_pos hopen, Tree.Whole, Tree.Whole] at hwhole
        exact hwhole.elim
      · rw [if_neg hopen, unfoldAll, Tree.Whole] at hwhole
        rw [if_neg hopen, unfoldAll, Tree.language, mem_wrappedMarks]
        refine ⟨_, mem_language_of_reads hr rfl hwhole _, ?_⟩
        rw [Reading.marks_node_singleton, Option.toList, List.flatMap_nil, List.append_nil]
  | _, .slot text name suffix tag, _, .slot hvalues he hr, c, hc, hwhole, hidden => by
      rw [unfold_slot_of_get? hvalues] at hwhole ⊢
      by_cases hopen : c.slots.contains (slotKey name) = true
      · rw [if_pos hopen, Tree.Whole, AllWhole, Tree.Whole] at hwhole
        exact hwhole.2.1.elim
      · rw [if_neg hopen, unfoldAll_eq_map, Tree.Whole] at hwhole
        rw [if_neg hopen, unfoldAll_eq_map, Tree.language, mem_wrappedMarks]
        have hmem := List.mem_map_of_mem (f := unfold t (c.enterSlot (slotKey name))) he
        have hmarks := mem_language_of_reads hr (c := c.enterSlot (slotKey name)) hc
          (hwhole.2.whole_of_mem hmem) (hidden || isReplaced suffix tag)
        refine ⟨_, Language.mem_mul.mpr ⟨_, mem_languageOfEach.mpr ⟨_, hmem, hmarks⟩,
          _, rfl, rfl⟩, ?_⟩
        rw [Reading.marks_node_singleton, Option.toList, List.flatMap_singleton]

theorem mem_languageInTurn_of_reads {t : Table} :
    ∀ {here : String} {es : List Expr} {rs : List Reading}, ReadsInTurn t here es rs →
      ∀ {c : Scope}, c.here = here → AllWhole (unfoldAll t c es) →
      ∀ hidden, Reading.marksInTurn hidden rs ∈ languageInTurn true hidden (unfoldAll t c es)
  | _, _, _, .nil, c, _, _, hidden => by
      rw [unfoldAll, languageInTurn, Language.mem_one]
      rfl
  | _, _, _, .cons hr hrs, c, hc, hwhole, hidden => by
      rw [unfoldAll, AllWhole] at hwhole
      rw [unfoldAll, languageInTurn, Language.mem_mul]
      exact ⟨_, mem_language_of_reads hr hc hwhole.1 hidden,
        _, mem_languageInTurn_of_reads hrs hc hwhole.2 hidden, rfl⟩

end

/-! ## The readings of all intents -/

/-- The routes from the start to the final state of a compiled graph spell the
label of an intent and then a reading of one of its sentences. -/
theorem route_ofSentences {l : IntentSentences} {t : Table} {o : CompileOptions} {g : Graph}
    (hg : Graph.ofSentences l t o = .ok g) (hexpand : o.expandSlots = true) {final : Nat}
    (hfinal : g.final = some final) {ms : List Mark} :
    g.Route 0 ms final ↔ ∃ intent sentences, (intent, sentences) ∈ l ∧ ∃ s ∈ sentences,
      ∃ r, Reads t intent s.toExpr r ∧ ms = intentMark intent :: r.marks false := by
  obtain ⟨final', hfinal', E⟩ := ofSentences_extends hg
  obtain rfl : final' = final := Option.some.inj (hfinal'.symm.trans hfinal)
  have hspells : g.Route 0 ms final' ↔ ms ∈ languageOfIntents t true l := by
    rw [← hexpand, E.spells]
    simp only [List.mem_singleton, exists_eq_left]
  rw [hspells, mem_languageOfIntents]
  refine exists_congr fun intent => exists_congr fun sentences => and_congr_right fun hmem => ?_
  rw [intentLanguage, Language.mem_mul]
  refine ⟨?_, ?_⟩
  · rintro ⟨_, rfl, m, hm, rfl⟩
    obtain ⟨_, htree, hm⟩ := mem_languageOfEach.mp hm
    obtain ⟨s, hs, rfl⟩ := List.mem_map.mp htree
    obtain ⟨r, hr, rfl⟩ := accounted t _ _ hm
    exact ⟨s, hs, r, hr, rfl⟩
  · rintro ⟨s, hs, r, hr, rfl⟩
    obtain ⟨ws, h, xs, hlength, hb, -⟩ := ofSentences_eq_ok hg
    rw [hexpand] at hb
    have hwhole := whole_of_buildIntents _ hb _
      ((map_fst_zip_of_length_eq hlength).symm ▸ hmem) s hs
    refine ⟨_, rfl, r.marks false, mem_languageOfEach.mpr ⟨_, List.mem_map_of_mem hs, ?_⟩, rfl⟩
    exact mem_language_of_reads hr rfl hwhole false

end Utterance
