import Utterance.Proofs.Compile.Faults
import Utterance.Proofs.Template.References

/-!
# Writing bodies out

A reference to a rule means the body that the table has for it.  So a template in which the
body is written in the place of the reference, as a group with the reference's tag, compiles
to the same graph: the two trees are built and counted alike (`Tree.Alike`), and so are the
trees around them.

`ofSentences_inline` says this of all sentences of an intent, for a body that refers to
nothing itself and therefore means the same everywhere.
-/

namespace Utterance

/-! ## Trees that cannot be told apart -/

/-- The trees are built from every state with the same result, and counted alike. -/
structure Tree.Alike (t t' : Tree) : Prop where
  build : ∀ expand hidden g s, build expand hidden g s t = build expand hidden g s t'
  count : ∀ excludeSlots, t.count excludeSlots = t'.count excludeSlots

/-- Trees that are alike one by one. -/
abbrev AllAlike (ts ts' : List Tree) : Prop := List.Forall₂ Tree.Alike ts ts'

theorem Tree.Alike.refl (t : Tree) : t.Alike t := ⟨fun _ _ _ _ => rfl, fun _ => rfl⟩

namespace AllAlike

variable {ts ts' : List Tree}

theorem buildInTurn (h : AllAlike ts ts') (expand hidden : Bool) (g : Graph) (s : Nat) :
    buildInTurn expand hidden g s ts = Utterance.buildInTurn expand hidden g s ts' := by
  induction h generalizing g s with
  | nil => rfl
  | cons ht _ ih => simp only [Utterance.buildInTurn, ht.build, ih]

theorem buildEach (h : AllAlike ts ts') (expand hidden : Bool) (g : Graph) (s : Nat) :
    buildEach expand hidden g s ts = Utterance.buildEach expand hidden g s ts' := by
  induction h generalizing g with
  | nil => rfl
  | cons ht _ ih => simp only [Utterance.buildEach, ht.build, ih]

theorem productOf (h : AllAlike ts ts') (excludeSlots : Bool) :
    productOf excludeSlots ts = Utterance.productOf excludeSlots ts' := by
  induction h with
  | nil => rfl
  | cons ht _ ih => simp only [Utterance.productOf, ht.count, ih]

theorem sumOf (h : AllAlike ts ts') (excludeSlots : Bool) :
    sumOf excludeSlots ts = Utterance.sumOf excludeSlots ts' := by
  induction h with
  | nil => rfl
  | cons ht _ ih => simp only [Utterance.sumOf, ht.count, ih]

theorem seq (h : AllAlike ts ts') (kind : SequenceKind) (suffix : Suffix) (tag : Option Tag) :
    (Tree.seq kind ts suffix tag).Alike (.seq kind ts' suffix tag) where
  build expand hidden g s := by
    rw [build, build]
    cases kind with
    | group => simp only [h.buildInTurn]
    | alternative => simp only [h.buildEach]
  count excludeSlots := by
    cases kind with
    | group => rw [Tree.count, Tree.count, h.productOf]
    | alternative => rw [Tree.count, Tree.count, h.sumOf]

end AllAlike

/-- A rule with one body is that body in a group. -/
theorem alike_group_rule (key : String) (t : Tree) (tag : Option Tag) :
    (Tree.seq .group [t] {} tag).Alike (.rule key [t] tag) where
  build expand hidden g s := by
    rw [build, build]
    have hone : ∀ hidden g s, buildInTurn expand hidden g s [t] = build expand hidden g s t := by
      intro hidden g s
      rw [buildInTurn]
      cases build expand hidden g s t <;> rfl
    simp only [hone]
  count excludeSlots := by
    -- the count of the only item is multiplied by one, or zero is added to that of the only body
    rw [Tree.count, Tree.count, productOf, sumOf]
    cases t.count excludeSlots with
    | error e => rfl
    | ok n =>
        change Except.ok (Count.mul n 1) = Except.ok (Count.add n 0)
        rw [Count.mul, Count.add, Nat.mul_one, Nat.add_zero]

/-! ## Other references -/

namespace Expr

mutual

/-- The tree with `f ref tag` in place of every reference to a rule. -/
def mapRules (f : RuleRef → Option Tag → Expr) : Expr → Expr
  | word t s g => word t s g
  | seq k t items s g => seq k t (mapRulesOf f items) s g
  | rule r g => f r g
  | slot t n s g => slot t n s g

def mapRulesOf (f : RuleRef → Option Tag → Expr) : List Expr → List Expr
  | [] => []
  | e :: es => mapRules f e :: mapRulesOf f es

end

/-- The tree refers to no rule and to no slot. -/
def Literal (e : Expr) : Prop := e.AllRefs (fun _ => False) ∧ e.slotKeys = []

theorem literal_seq_iff {kind : SequenceKind} {text : String} {items : List Expr} {suffix : Suffix}
    {tag : Option Tag} : (seq kind text items suffix tag).Literal ↔ ∀ e ∈ items, e.Literal := by
  rw [Literal, allRefs_seq_iff, slotKeys_seq, slotKeysOf, List.flatMap_eq_nil_iff]
  constructor
  · exact fun h e he => ⟨h.1 e he, h.2 e he⟩
  · exact fun h => ⟨fun e he => (h e he).1, fun e he => (h e he).2⟩

end Expr

section

variable {t : Table} {c : Scope} {f : RuleRef → Option Tag → Expr}

mutual

/-- What unfolds alike in the places of references unfolds alike in the whole. -/
theorem alike_unfold_mapRules : ∀ e : Expr,
    (∀ ref tag, .rule ref tag ∈ e.nodes →
      (unfold t c (f ref tag)).Alike (unfold t c (.rule ref tag))) →
    (unfold t c (e.mapRules f)).Alike (unfold t c e)
  | .word _ _ _, _ => by
      rw [Expr.mapRules]
      exact Tree.Alike.refl _
  | .seq kind text items suffix tag, h => by
      rw [Expr.mapRules, unfold, unfold]
      refine (alike_unfoldAll_mapRulesOf items fun ref tag hmem => ?_).seq kind suffix tag
      exact h ref tag (List.mem_cons_of_mem _ hmem)
  | .rule ref tag, h => by
      rw [Expr.mapRules]
      exact h ref tag (by simp [Expr.nodes])
  | .slot _ _ _ _, _ => by
      rw [Expr.mapRules]
      exact Tree.Alike.refl _

theorem alike_unfoldAll_mapRulesOf : ∀ es : List Expr,
    (∀ ref tag, .rule ref tag ∈ Expr.nodesOf es →
      (unfold t c (f ref tag)).Alike (unfold t c (.rule ref tag))) →
    AllAlike (unfoldAll t c (Expr.mapRulesOf f es)) (unfoldAll t c es)
  | [], _ => by
      rw [Expr.mapRulesOf, unfoldAll]
      exact .nil
  | e :: es, h => by
      rw [Expr.mapRulesOf, unfoldAll, unfoldAll]
      refine .cons (alike_unfold_mapRules e fun ref tag hmem => ?_)
        (alike_unfoldAll_mapRulesOf es fun ref tag hmem => ?_)
      · exact h ref tag (List.mem_append_left _ hmem)
      · exact h ref tag (List.mem_append_right _ hmem)

end

end

mutual

/-- What refers to nothing means the same everywhere. -/
theorem unfold_of_literal (t t' : Table) (c c' : Scope) : ∀ e : Expr, e.Literal →
    unfold t c e = unfold t' c' e
  | .word _ _ _, _ => by rw [unfold, unfold]
  | .seq kind text items suffix tag, h => by
      rw [unfold, unfold, unfoldAll_of_literal t t' c c' items (Expr.literal_seq_iff.mp h)]
  | .rule ref tag, h => (Expr.allRefs_rule_iff.mp h.1).elim
  | .slot text name suffix tag, h => by
      have hkeys := h.2
      rw [Expr.slotKeys_slot] at hkeys
      cases hkeys

theorem unfoldAll_of_literal (t t' : Table) (c c' : Scope) : ∀ es : List Expr,
    (∀ e ∈ es, e.Literal) → unfoldAll t c es = unfoldAll t' c' es
  | [], _ => by rw [unfoldAll, unfoldAll]
  | e :: es, h => by
      rw [List.forall_mem_cons] at h
      rw [unfoldAll, unfoldAll, unfold_of_literal t t' c c' e h.1,
        unfoldAll_of_literal t t' c c' es h.2]

end

/-- A reference and its body in a group unfold alike. -/
theorem alike_unfold_group {t : Table} {c : Scope} {ref : RuleRef} {body : Expr}
    (hget : t.get? (c.keyOf ref) = some [body]) (hbody : body.Literal)
    (hopen : c.keyOf ref ∉ c.rules) (text : String) (tag : Option Tag) :
    (unfold t c (.seq .group text [body] {} tag)).Alike (unfold t c (.rule ref tag)) := by
  have hsame := unfold_of_literal t t c (c.enterRule (c.keyOf ref) (c.grammarOf ref)) body hbody
  rw [unfold_rule_of_get? hget, if_neg (by simpa using hopen), unfold, unfoldAll, unfoldAll,
    unfoldAll, unfoldAll, hsame]
  exact alike_group_rule _ _ tag

/-! ## Whole intents -/

def Sentence.mapRules (f : RuleRef → Option Tag → Expr) (s : Sentence) : Sentence :=
  { s with items := Expr.mapRulesOf f s.items }

theorem Sentence.toExpr_mapRules (f : RuleRef → Option Tag → Expr) (s : Sentence) :
    (s.mapRules f).toExpr = s.toExpr.mapRules f := by
  rw [toExpr, toExpr, Expr.mapRules]
  rfl

/-- The reference, or if it has this text a group with the body. -/
def RuleRef.inlined (text : String) (body : Expr) (ref : RuleRef) (tag : Option Tag) : Expr :=
  if ref.text = text then .seq .group text [body] {} tag else .rule ref tag

/-- The sentences with the body written out in place of the references with this text in one
intent. -/
def IntentSentences.inline (intent text : String) (body : Expr) (l : IntentSentences) :
    IntentSentences :=
  l.map fun p => (p.1, p.2.map fun s =>
    if p.1 = intent then s.mapRules (RuleRef.inlined text body) else s)

section

variable {t : Table} {F : String → Sentence → Sentence} {l : IntentSentences}

theorem allAlike_map {intent : String} {sentences : List Sentence}
    (h : ∀ s ∈ sentences, ((F intent s).unfold t intent).Alike (s.unfold t intent)) :
    AllAlike ((sentences.map (F intent)).map (Sentence.unfold t intent))
      (sentences.map (Sentence.unfold t intent)) := by
  rw [AllAlike, List.map_map, List.forall₂_map_left_iff, List.forall₂_map_right_iff]
  exact List.forall₂_same.mpr h

theorem buildIntents_map (expand : Bool) (start : Nat)
    (h : ∀ p ∈ l, ∀ s ∈ p.2, ((F p.1 s).unfold t p.1).Alike (s.unfold t p.1)) :
    ∀ (ws : List EdgeWeight) (g : Graph),
      buildIntents t expand g start ((l.map fun p => (p.1, p.2.map (F p.1))).zip ws) =
        buildIntents t expand g start (l.zip ws) := by
  induction l with
  | nil => exact fun _ _ => rfl
  | cons p l ih =>
      rw [List.forall_mem_cons] at h
      intro ws g
      cases ws with
      | nil => rfl
      | cons w ws =>
          simp only [List.map_cons, List.zip_cons_cons, buildIntents, buildIntent,
            (allAlike_map h.1).buildEach, ih h.2]

theorem intentCounts_map (excludeSlots : Bool)
    (h : ∀ p ∈ l, ∀ s ∈ p.2, ((F p.1 s).unfold t p.1).Alike (s.unfold t p.1)) :
    intentCounts (l.map fun p => (p.1, p.2.map (F p.1))) t excludeSlots =
      intentCounts l t excludeSlots := by
  induction l with
  | nil => rfl
  | cons p l ih =>
      rw [List.forall_mem_cons] at h
      have hone : intentCount t excludeSlots p.1 (p.2.map (F p.1)) =
          intentCount t excludeSlots p.1 p.2 := by
        rw [intentCount, intentCount, (allAlike_map h.1).sumOf]
      have ih := ih h.2
      simp only [intentCounts] at ih
      simp only [intentCounts, List.map_cons, List.mapM_cons, hone, ih]

theorem edgeWeights_map (h : ∀ p ∈ l, ∀ s ∈ p.2, ((F p.1 s).unfold t p.1).Alike (s.unfold t p.1))
    (o : CompileOptions) :
    edgeWeights (l.map fun p => (p.1, p.2.map (F p.1))) t o = edgeWeights l t o := by
  rw [edgeWeights, edgeWeights, intentCounts_map _ h, List.length_map, List.map_map]
  rfl

/-- Sentences that unfold alike are compiled to the same graph. -/
theorem ofSentences_map
    (h : ∀ p ∈ l, ∀ s ∈ p.2, ((F p.1 s).unfold t p.1).Alike (s.unfold t p.1)) (o : CompileOptions) :
    Graph.ofSentences (l.map fun p => (p.1, p.2.map (F p.1))) t o = Graph.ofSentences l t o := by
  unfold Graph.ofSentences
  rw [edgeWeights_map h]
  cases edgeWeights l t o with
  | error e => rfl
  | ok ws => simp only [bind, Except.bind, buildIntents_map _ _ h]

end

/-- Compiling does not tell a reference from its body, if it means a body that refers to nothing. -/
theorem ofSentences_inline {l : IntentSentences} {t : Table} {intent text : String} {body : Expr}
    (hbody : body.Literal)
    (h : ∀ sentences, (intent, sentences) ∈ l → ∀ s ∈ sentences, ∀ ref tag,
      .rule ref tag ∈ s.toExpr.nodes → ref.text = text →
        t.get? (Scope.keyOf { intent } ref) = some [body]) (o : CompileOptions) :
    Graph.ofSentences (l.inline intent text body) t o = Graph.ofSentences l t o := by
  refine ofSentences_map (F := fun name s =>
    if name = intent then s.mapRules (RuleRef.inlined text body) else s) (fun p hp s hs => ?_) o
  split
  next hname =>
    rw [Sentence.unfold, Sentence.unfold, Sentence.toExpr_mapRules]
    refine alike_unfold_mapRules s.toExpr fun ref tag hmem => ?_
    rw [RuleRef.inlined]
    split
    next htext =>
      refine alike_unfold_group ?_ hbody List.not_mem_nil text tag
      rw [hname]
      exact h p.2 (hname ▸ hp) s hs ref tag hmem htext
    next => exact Tree.Alike.refl _
  next => exact Tree.Alike.refl _

end Utterance
